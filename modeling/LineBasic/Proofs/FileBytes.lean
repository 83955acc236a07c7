import Mathlib
import LineBasic.Proofs.Reloading

/-!
# Bytes of files

The lines of a file can be found before or after its bytes are read as UTF-8: the line ends are
single bytes, and no byte of another character is one of them. So a file is text just when each of
its lines is, and the lines of the text are those of the bytes. To cut bytes into lines, each is
taken for the character of its code.
-/
namespace LineBasic

/-- The bytes, each as the character of its code. -/
def octets (bytes : ByteArray) : List Char :=
  bytes.data.toList.map Char.ofUInt8

theorem toNat_ofUInt8 (b : UInt8) : (Char.ofUInt8 b).toNat = b.toNat :=
  UInt8.toNat_toUInt32 b

theorem octets_append (a b : ByteArray) : octets (a ++ b) = octets a ++ octets b := by
  simp [octets]

theorem octets_inj {a b : ByteArray} : octets a = octets b ↔ a = b := by
  have hcode : Function.Injective Char.ofUInt8 := by
    intro x y h
    apply UInt8.toNat_inj.mp
    rw [← toNat_ofUInt8, ← toNat_ofUInt8, h]
  constructor
  · intro h
    exact ByteArray.ext (Array.toList_inj.mp (List.map_injective_iff.mpr hcode h))
  · exact congrArg octets

/-! ## Characters as bytes -/

theorem octets_utf8Encode_cons (c : Char) (cs : List Char) :
    octets (c :: cs).utf8Encode = octets [c].utf8Encode ++ octets cs.utf8Encode := by
  rw [List.utf8Encode_cons, octets_append]

theorem octets_utf8Encode_append (cs ds : List Char) :
    octets (cs ++ ds).utf8Encode = octets cs.utf8Encode ++ octets ds.utf8Encode := by
  rw [List.utf8Encode_append, octets_append]

theorem octets_singleton_ne_nil (c : Char) : octets [c].utf8Encode ≠ [] := by
  intro h
  have hlength := congrArg List.length h
  rw [List.utf8Encode_singleton, octets, List.toList_data_toByteArray, List.length_map,
    String.length_utf8EncodeChar] at hlength
  exact absurd hlength c.utf8Size_pos.ne'

/-- Below 128 a byte stands for the character of its code only. -/
theorem mem_octets_singleton_iff {c d : Char} (hd : d.toNat < 128) :
    d ∈ octets [c].utf8Encode ↔ d = c := by
  have hcode (n : Nat) : d = Char.ofUInt8 (UInt8.ofNat n) ↔ d.toNat = n % 256 := by
    rw [← Char.toNat_inj, toNat_ofUInt8, UInt8.toNat_ofNat']
  have hval : c.val.toNat = c.toNat := rfl
  rw [← Char.toNat_inj, List.utf8Encode_singleton, octets, List.toList_data_toByteArray]
  unfold String.utf8EncodeChar
  dsimp only
  rw [hval]
  split_ifs <;>
    simp only [List.map_cons, List.map_nil, List.mem_cons, List.not_mem_nil, or_false, hcode] <;>
    omega

theorem octets_cons_of_lt {c : Char} (hc : c.toNat < 128) (cs : List Char) :
    octets (c :: cs).utf8Encode = c :: octets cs.utf8Encode := by
  have hsize : c.utf8Size = 1 := by
    rw [Char.utf8Size_eq_one_iff, UInt32.le_iff_toNat_le]
    exact Nat.le_of_lt_succ hc
  have hcode : Char.ofUInt8 c.val.toUInt8 = c := by
    rw [← Char.toNat_inj, toNat_ofUInt8, UInt32.toNat_toUInt8, Char.toNat_val]
    omega
  have hone : octets [c].utf8Encode = [c] := by
    rw [List.utf8Encode_singleton, String.utf8EncodeChar_eq_singleton hsize, octets,
      List.toList_data_toByteArray, List.map_singleton, hcode]
  rw [octets_utf8Encode_cons, hone, List.singleton_append]

theorem head?_octets_ne {cs : List Char} {d : Char} (hd : d.toNat < 128)
    (h : cs.head? ≠ some d) : (octets cs.utf8Encode).head? ≠ some d := by
  cases cs with
  | nil => simp [octets]
  | cons c cs =>
    intro hhead
    rw [octets_utf8Encode_cons, List.head?_append_of_ne_nil _ (octets_singleton_ne_nil c)] at hhead
    have hmem := List.mem_of_mem_head? hhead
    rw [mem_octets_singleton_iff hd] at hmem
    exact h (by simp [hmem])

/-! ## Lines as bytes -/

theorem lines_octets_cons {c : Char} {cs : List Char} (hlf : c ≠ '\n')
    (hcr : ∀ rest, c = '\r' → cs ≠ '\n' :: rest) :
    Text.lines (octets (c :: cs).utf8Encode) =
      (octets [c].utf8Encode ++ (Text.lines (octets cs.utf8Encode)).headD []) ::
        (Text.lines (octets cs.utf8Encode)).tail := by
  rw [octets_utf8Encode_cons]
  apply Text.lines_append (octets_singleton_ne_nil c)
  · rw [mem_octets_singleton_iff (by decide)]
    exact hlf.symm
  · intro hlast
    have hmem := List.mem_of_mem_getLast? hlast
    rw [mem_octets_singleton_iff (by decide)] at hmem
    apply head?_octets_ne (by decide)
    intro hhead
    obtain ⟨rest, hcs⟩ := List.head?_eq_some_iff.mp hhead
    exact hcr rest hmem.symm hcs

theorem lines_octets (cs : List Char) :
    Text.lines (octets cs.utf8Encode) = (Text.lines cs).map fun l => octets l.utf8Encode := by
  fun_induction Text.lines cs with
  | case1 => rfl
  | case2 cs ih =>
    rw [octets_cons_of_lt (by decide), Text.lines, ih]
    rfl
  | case3 cs ih =>
    rw [octets_cons_of_lt (by decide), octets_cons_of_lt (by decide), Text.lines, ih]
    rfl
  | case4 c cs hlf hcr hlines ih =>
    rw [lines_octets_cons hlf hcr, ih, hlines]
    simp [octets]
  | case5 c cs hlf hcr l ls hlines ih =>
    rw [lines_octets_cons hlf hcr, ih, hlines, List.map_cons, List.map_cons,
      octets_utf8Encode_cons c l]
    rfl

theorem Text.Holds.cons {l text : List Char} {ls : List (List Char)} (h : Holds (l :: ls) text)
    (c : Char) : Holds ((c :: l) :: ls) (c :: text) := by
  cases h with
  | unended _ => exact .unended (c :: l)
  | lf _ hrest => exact .lf (c :: l) hrest
  | crlf _ hrest => exact .crlf (c :: l) hrest

theorem Text.holds_lines (cs : List Char) : Holds (lines cs) cs := by
  fun_induction lines cs with
  | case1 => exact .nil
  | case2 cs ih => exact .lf [] ih
  | case3 cs ih => exact .crlf [] ih
  | case4 c cs hlf hcr hlines ih =>
    rw [hlines] at ih
    cases ih with
    | nil => exact .unended [c]
  | case5 c cs hlf hcr l ls hlines ih =>
    rw [hlines] at ih
    exact ih.cons c

/-- What holds lines of characters as bytes is a text as bytes. -/
theorem Text.Holds.exists_octets {ls : List (List Char)} {bytes : List Char}
    (h : Holds (ls.map fun l => octets l.utf8Encode) bytes) :
    ∃ cs : List Char, bytes = octets cs.utf8Encode := by
  generalize hpieces : (ls.map fun l => octets l.utf8Encode) = pieces at h
  induction h generalizing ls with
  | nil => exact ⟨[], rfl⟩
  | unended piece =>
    obtain ⟨l, rest, rfl, rfl, _⟩ := List.map_eq_cons_iff.mp hpieces
    exact ⟨l, rfl⟩
  | lf piece _ ih =>
    obtain ⟨l, rest, rfl, rfl, hrest⟩ := List.map_eq_cons_iff.mp hpieces
    obtain ⟨cs, rfl⟩ := ih hrest
    refine ⟨l ++ '\n' :: cs, ?_⟩
    rw [octets_utf8Encode_append, octets_cons_of_lt (by decide)]
  | crlf piece _ ih =>
    obtain ⟨l, rest, rfl, rfl, hrest⟩ := List.map_eq_cons_iff.mp hpieces
    obtain ⟨cs, rfl⟩ := ih hrest
    refine ⟨l ++ '\r' :: '\n' :: cs, ?_⟩
    rw [octets_utf8Encode_append, octets_cons_of_lt (by decide), octets_cons_of_lt (by decide)]

/-- A file is read just when each of its lines is the UTF-8 form of some text, and then as these
texts. -/
theorem fileLines_eq_ok_iff {contents : ByteArray} {lines : List String} :
    fileLines contents = .ok lines ↔
      Text.lines (octets contents) = lines.map fun line => octets line.toUTF8 := by
  have hinj : Function.Injective fun line : String => octets line.toUTF8 := fun a b h =>
    String.toByteArray_inj.mp (octets_inj.mp h)
  have htext (text : String) : Text.lines (octets text.toUTF8) =
      ((Text.lines text.toList).map String.ofList).map fun line => octets line.toUTF8 := by
    have hbytes : text.toUTF8 = text.toList.utf8Encode := String.utf8Encode_toList.symm
    rw [hbytes, lines_octets, List.map_map]
    simp
  constructor
  · intro h
    unfold fileLines String.fromUTF8? at h
    split at h
    · rename_i text hdecoded
      split at hdecoded
      · rename_i hvalid
        cases hdecoded
        cases h
        exact htext (.fromUTF8 contents hvalid)
      · cases hdecoded
    · cases h
  · intro h
    have hholds := Text.holds_lines (octets contents)
    have hpieces : (lines.map fun line => octets line.toUTF8) =
        (lines.map String.toList).map fun l => octets l.utf8Encode := by
      simp [String.utf8Encode_toList]
    rw [h, hpieces] at hholds
    obtain ⟨cs, hcs⟩ := hholds.exists_octets
    have hcontents : contents = (String.ofList cs).toUTF8 := by
      rw [octets_inj.mp hcs, String.toUTF8_eq_toByteArray, String.toByteArray_ofList]
    rw [hcontents, htext] at h
    rw [hcontents, fileLines_toUTF8, List.map_injective_iff.mpr hinj h]

end LineBasic
