import LineBasic.Line
import LineBasic.Proofs.Recognition.Expr

/-!
# Reading recognizes the grammar of lines

Statements and lines are read without repetition, so each of their readers is told by one
equivalence. The line itself is decided by its first tokens alone, except for the statement behind a
number, which is the one that the grammar derives from the tokens up to the end of the line.
-/
namespace LineBasic

open Grammar

namespace Statement

variable {ts : List Token} {st : Statement} {fault : SyntaxFault}

theorem closing_eq_ok_iff {α : Type} {a b : α} :
    closing fault a ts = .ok b ↔ b = a ∧ ∃ rest, ts = .endOfLine :: rest := by
  constructor
  · intro h
    unfold closing at h
    split at h
    · rename_i rest
      exact ⟨(Except.ok.inj h).symm, rest, rfl⟩
    · cases h
  · rintro ⟨rfl, rest, rfl⟩
    rfl

theorem jumpTarget_eq_ok_iff {n : LineNumber} :
    jumpTarget fault ts = .ok n ↔ ∃ rest, ts = .integer n :: .endOfLine :: rest := by
  constructor
  · intro h
    unfold jumpTarget at h
    split at h
    · obtain ⟨rfl, rest, rfl⟩ := closing_eq_ok_iff.mp h
      exact ⟨rest, rfl⟩
    · cases h
  · rintro ⟨rest, rfl⟩
    rfl

theorem parseRemark_eq_ok_iff : parseRemark ts = .ok st ↔
    (∃ rest, ts = .endOfLine :: rest ∧ st = .remark "") ∨
      ∃ text rest, ts = .remark text :: .endOfLine :: rest ∧ st = .remark text := by
  constructor
  · intro h
    unfold parseRemark at h
    split at h
    · obtain ⟨rfl, rest, rfl⟩ := closing_eq_ok_iff.mp h
      exact .inr ⟨_, rest, rfl, rfl⟩
    · obtain ⟨rfl, rest, rfl⟩ := closing_eq_ok_iff.mp h
      exact .inl ⟨rest, rfl, rfl⟩
  · rintro (⟨rest, rfl, rfl⟩ | ⟨text, rest, rfl, rfl⟩) <;> rfl

theorem comparison_closing_eq_ok_iff {f : Expr → Statement} :
    (Expr.comparison ts >>= fun q => closing fault (f q.value) q.rest) = .ok st ↔
      ∃ e rest, Reads Expr.comparison ts e (.endOfLine :: rest) ∧ st = f e := by
  rw [bind_eq_ok_iff]
  constructor
  · rintro ⟨q, hq, hc⟩
    obtain ⟨rfl, rest, hr⟩ := closing_eq_ok_iff.mp hc
    exact ⟨q.value, rest, ⟨q, hq, rfl, hr⟩, rfl⟩
  · rintro ⟨e, rest, ⟨q, hq, rfl, hr⟩, rfl⟩
    exact ⟨q, hq, closing_eq_ok_iff.mpr ⟨rfl, rest, hr⟩⟩

theorem parsePrint_eq_ok_iff : parsePrint ts = .ok st ↔
    ∃ e rest, Reads Expr.comparison ts e (.endOfLine :: rest) ∧ st = .print e :=
  comparison_closing_eq_ok_iff

theorem parseLet_eq_ok_iff : parseLet ts = .ok st ↔
    ∃ name us e rest, ts = .ident name :: .operator .equal :: us ∧
      Reads Expr.comparison us e (.endOfLine :: rest) ∧ st = .assign name e := by
  constructor
  · intro h
    unfold parseLet at h
    split at h
    · rename_i name us
      obtain ⟨e, rest, he, rfl⟩ := comparison_closing_eq_ok_iff.mp h
      exact ⟨name, us, e, rest, rfl, he, rfl⟩
    · cases h
    · cases h
  · rintro ⟨name, us, e, rest, rfl, he, rfl⟩
    exact comparison_closing_eq_ok_iff.mpr ⟨e, rest, he, rfl⟩

theorem parseInput_eq_ok_iff : parseInput ts = .ok st ↔
    ∃ name rest, ts = .ident name :: .endOfLine :: rest ∧ st = .input name := by
  constructor
  · intro h
    unfold parseInput at h
    split at h
    · obtain ⟨rfl, rest, rfl⟩ := closing_eq_ok_iff.mp h
      exact ⟨_, rest, rfl, rfl⟩
    · cases h
  · rintro ⟨name, rest, rfl, rfl⟩
    rfl

theorem parseGoto_eq_ok_iff : parseGoto ts = .ok st ↔
    ∃ n rest, ts = .integer n :: .endOfLine :: rest ∧ st = .goto n := by
  unfold parseGoto
  rw [bind_eq_ok_iff]
  constructor
  · rintro ⟨n, hn, hst⟩
    obtain ⟨rest, rfl⟩ := jumpTarget_eq_ok_iff.mp hn
    exact ⟨n, rest, rfl, (Except.ok.inj hst).symm⟩
  · rintro ⟨n, rest, rfl, rfl⟩
    exact ⟨n, rfl, rfl⟩

theorem parseIf_eq_ok_iff : parseIf ts = .ok st ↔
    ∃ e n rest, Reads Expr.comparison ts e (.word .THEN :: .integer n :: .endOfLine :: rest) ∧
      st = .branch e n := by
  constructor
  · intro h
    unfold parseIf at h
    obtain ⟨q, hq, h⟩ := bind_eq_ok_iff.mp h
    split at h
    · rename_i after hr
      obtain ⟨n, hn, hst⟩ := bind_eq_ok_iff.mp h
      obtain ⟨rest, rfl⟩ := jumpTarget_eq_ok_iff.mp hn
      exact ⟨q.value, n, rest, ⟨q, hq, rfl, hr⟩, (Except.ok.inj hst).symm⟩
    · cases h
  · rintro ⟨e, n, rest, ⟨q, hq, rfl, hr⟩, rfl⟩
    unfold parseIf
    refine bind_eq_ok_iff.mpr ⟨q, hq, ?_⟩
    rw [hr]
    rfl

theorem parseEnd_eq_ok_iff : parseEnd ts = .ok st ↔
    ∃ rest, ts = .endOfLine :: rest ∧ st = .stop := by
  unfold parseEnd
  rw [closing_eq_ok_iff]
  constructor
  · rintro ⟨rfl, rest, rfl⟩
    exact ⟨rest, rfl, rfl⟩
  · rintro ⟨rest, rfl, rfl⟩
    exact ⟨rfl, rest, rfl⟩

/-- A statement is read exactly where the grammar derives one up to an end of line. -/
theorem parse_eq_ok_iff : parse ts = .ok st ↔
    ∃ p rest, ts = p ++ .endOfLine :: rest ∧ Sentence p st := by
  constructor
  · intro h
    unfold parse at h
    split at h
    · rcases parseRemark_eq_ok_iff.mp h with ⟨rest, rfl, rfl⟩ | ⟨text, rest, rfl, rfl⟩
      · exact ⟨[.word .REM], rest, rfl, .emptyRemark⟩
      · exact ⟨[.word .REM, .remark text], rest, rfl, .remark text⟩
    · obtain ⟨name, us, e, rest, rfl, he, rfl⟩ := parseLet_eq_ok_iff.mp h
      obtain ⟨p, rfl, hp⟩ := (reads_comparison_iff_derived (by simp)).mp he
      exact ⟨.word .LET :: .ident name :: .operator .equal :: p, rest, rfl, .assign name hp⟩
    · obtain ⟨e, rest, he, rfl⟩ := parsePrint_eq_ok_iff.mp h
      obtain ⟨p, rfl, hp⟩ := (reads_comparison_iff_derived (by simp)).mp he
      exact ⟨.word .PRINT :: p, rest, rfl, .print hp⟩
    · obtain ⟨name, rest, rfl, rfl⟩ := parseInput_eq_ok_iff.mp h
      exact ⟨[.word .INPUT, .ident name], rest, rfl, .input name⟩
    · obtain ⟨n, rest, rfl, rfl⟩ := parseGoto_eq_ok_iff.mp h
      exact ⟨[.word .GOTO, .integer n], rest, rfl, .goto n⟩
    · obtain ⟨e, n, rest, he, rfl⟩ := parseIf_eq_ok_iff.mp h
      obtain ⟨p, rfl, hp⟩ := (reads_comparison_iff_derived (by simp)).mp he
      exact ⟨.word .IF :: p ++ [.word .THEN, .integer n], rest, by simp, .branch n hp⟩
    · obtain ⟨rest, rfl, rfl⟩ := parseEnd_eq_ok_iff.mp h
      exact ⟨[.word .END], rest, rfl, .stop⟩
    · cases h
  · rintro ⟨p, rest, rfl, hs⟩
    cases hs with
    | emptyRemark => exact parseRemark_eq_ok_iff.mpr (.inl ⟨rest, rfl, rfl⟩)
    | remark text => exact parseRemark_eq_ok_iff.mpr (.inr ⟨text, rest, rfl, rfl⟩)
    | @assign p e name hp =>
      have he : Reads Expr.comparison (p ++ .endOfLine :: rest) e (.endOfLine :: rest) :=
        (reads_comparison_iff_derived (by simp)).mpr ⟨p, rfl, hp⟩
      exact parseLet_eq_ok_iff.mpr ⟨name, _, e, rest, rfl, he, rfl⟩
    | @print p e hp =>
      have he : Reads Expr.comparison (p ++ .endOfLine :: rest) e (.endOfLine :: rest) :=
        (reads_comparison_iff_derived (by simp)).mpr ⟨p, rfl, hp⟩
      exact parsePrint_eq_ok_iff.mpr ⟨e, rest, he, rfl⟩
    | input name => exact parseInput_eq_ok_iff.mpr ⟨name, rest, rfl, rfl⟩
    | goto n => exact parseGoto_eq_ok_iff.mpr ⟨n, rest, rfl, rfl⟩
    | @branch p e n hp =>
      let after : List Token := .word .THEN :: .integer n :: .endOfLine :: rest
      have he : Reads Expr.comparison (p ++ after) e after :=
        (reads_comparison_iff_derived (by simp [after])).mpr ⟨p, rfl, hp⟩
      rw [List.append_assoc]
      exact parseIf_eq_ok_iff.mpr ⟨e, n, rest, he, rfl⟩
    | stop => exact parseEnd_eq_ok_iff.mpr ⟨rest, rfl, rfl⟩

end Statement

namespace Grammar

theorem Derives.unique {c : Category} {p : List Token} {e e' : Expr} (h : Derives c p e)
    (h' : Derives c p e') : e = e' := by
  have hs : Stops c [] := .of_no_operator (by simp)
  exact (((completes h).reads hs).unique ((completes h').reads hs)).1

theorem Sentence.unique {p : List Token} {st st' : Statement} (h : Sentence p st)
    (h' : Sentence p st') : st = st' := by
  have hst := Statement.parse_eq_ok_iff.mpr ⟨p, [], rfl, h⟩
  have hst' := Statement.parse_eq_ok_iff.mpr ⟨p, [], rfl, h'⟩
  exact Except.ok.inj (hst.symm.trans hst')

end Grammar

theorem SyntaxFault.message_ne_empty (fault : SyntaxFault) : fault.message ≠ "" := by
  cases fault with
  | unknownToken spelling =>
    intro h
    exact absurd (String.append_eq_empty_iff.mp h).1 (by decide)
  | _ => decide

namespace Line

variable {ts : List Token}

theorem ofTokens_of_known (h : ∀ text, .unknown text ∉ ts) : ofTokens ts = ofKnownTokens ts := by
  have hnone : ts.findSome? Token.unknown? = none := by
    refine List.findSome?_eq_none_iff.mpr fun t ht => ?_
    cases t with
    | unknown text => exact absurd ht (h text)
    | _ => rfl
  rw [ofTokens, hnone]

theorem ofTokens_of_unknown {text : String} (h : .unknown text ∈ ts) :
    ∃ found, .unknown found ∈ ts ∧ ofTokens ts = ofFault (.unknownToken found) := by
  cases hf : ts.findSome? Token.unknown? with
  | none => cases List.findSome?_eq_none_iff.mp hf _ h
  | some found =>
    refine ⟨found, ?_, by rw [ofTokens, hf]⟩
    obtain ⟨t, ht, hfound⟩ := List.exists_of_findSome?_eq_some hf
    cases t <;> cases hfound
    exact ht

theorem ofKnownTokens_of_written {line : Line} (h : Written ts line) : ofKnownTokens ts = line := by
  cases h with
  | empty | blank _ | command _ _ | delete _ _ => rfl
  | @numbered p st n rest hs =>
    have hne : ∀ after, p ++ .endOfLine :: rest = .endOfLine :: after → False := by
      intro after heq
      cases hs <;> cases heq
    have hst := Statement.parse_eq_ok_iff.mpr ⟨p, rest, rfl, hs⟩
    rw [List.cons_append, ofKnownTokens.eq_6 n _ hne, hst]

theorem written_of_ofKnownTokens {line : Line} (h : ofKnownTokens ts = line) :
    Written ts line ∨ ∃ fault, line = ofFault fault := by
  unfold ofKnownTokens at h
  split at h
  · exact .inl (h ▸ .empty)
  · exact .inl (h ▸ .blank _)
  · exact .inl (h ▸ .command _ _)
  · exact .inr ⟨_, h.symm⟩
  · exact .inl (h ▸ .delete _ _)
  · split at h
    · rename_i hst
      obtain ⟨p, rest, rfl, hs⟩ := Statement.parse_eq_ok_iff.mp hst
      exact .inl (h ▸ .numbered _ rest hs)
    · exact .inr ⟨_, h.symm⟩
  · exact .inr ⟨_, h.symm⟩

theorem ofKnownTokens_eq_iff {line : Line} (h : ∀ e, line ≠ .invalid e) :
    ofKnownTokens ts = line ↔ Written ts line := by
  refine ⟨fun heq => ?_, ofKnownTokens_of_written⟩
  rcases written_of_ofKnownTokens heq with hw | ⟨fault, rfl⟩
  · exact hw
  · exact absurd rfl (h _)

theorem not_written_invalid {e : Error} : ¬ Written ts (.invalid e) := by
  intro h
  cases h

theorem exists_fault_of_invalid {e : Error} (h : ofTokens ts = .invalid e) :
    ∃ fault : SyntaxFault, e = fault.toError := by
  unfold ofTokens at h
  split at h
  · cases h
    exact ⟨_, rfl⟩
  · rcases written_of_ofKnownTokens h with hw | ⟨fault, heq⟩
    · exact absurd hw not_written_invalid
    · cases heq
      exact ⟨fault, rfl⟩

/-- An error of a line is a syntax error outside the program, and says what is wrong. -/
theorem invalid_is_syntaxError {e : Error} (h : ofTokens ts = .invalid e) :
    e.kind = .syntaxError ∧ e.line = none ∧ e.detail ≠ "" := by
  obtain ⟨fault, rfl⟩ := exists_fault_of_invalid h
  exact ⟨rfl, rfl, fault.message_ne_empty⟩

/-- A sequence is an error exactly when a token in it is unknown or the grammar gives it no line. -/
theorem exists_invalid_iff : (∃ e, ofTokens ts = .invalid e) ↔
    (∃ text, .unknown text ∈ ts) ∨ ∀ line, ¬ Written ts line := by
  constructor
  · rintro ⟨e, he⟩
    by_cases hu : ∃ text, .unknown text ∈ ts
    · exact .inl hu
    · rw [ofTokens_of_known (not_exists.mp hu)] at he
      refine .inr fun line hw => ?_
      rw [ofKnownTokens_of_written hw] at he
      exact not_written_invalid (he ▸ hw)
  · intro h
    by_cases hu : ∃ text, .unknown text ∈ ts
    · obtain ⟨text, ht⟩ := hu
      obtain ⟨found, _, heq⟩ := ofTokens_of_unknown ht
      exact ⟨_, heq⟩
    · have hw := h.resolve_left hu
      rw [ofTokens_of_known (not_exists.mp hu)]
      rcases written_of_ofKnownTokens (rfl : ofKnownTokens ts = _) with h | ⟨fault, heq⟩
      · exact absurd h (hw _)
      · exact ⟨_, heq⟩

/-- Reading accepts exactly the grammar, and gives each line the one tree that the grammar does. -/
theorem ofTokens_recognizes (ts : List Token) :
    ((∀ text, .unknown text ∉ ts) →
      (∀ n st, ofTokens ts = .numbered n st ↔
        ∃ p rest, ts = .integer n :: p ++ .endOfLine :: rest ∧ Sentence p st) ∧
      (∀ n, ofTokens ts = .delete n ↔ ∃ rest, ts = .integer n :: .endOfLine :: rest) ∧
      (∀ c, ofTokens ts = .command c ↔ ∃ rest, ts = .command c :: .endOfLine :: rest) ∧
      (ofTokens ts = .blank ↔ ts = [] ∨ ∃ rest, ts = .endOfLine :: rest)) ∧
    ((∃ e, ofTokens ts = .invalid e) ↔
      (∃ text, .unknown text ∈ ts) ∨ ∀ line, ¬ Written ts line) ∧
    (∀ e, ofTokens ts = .invalid e → e.kind = .syntaxError ∧ e.line = none ∧ e.detail ≠ "") ∧
    (∀ p st st', Sentence p st → Sentence p st' → st = st') ∧
    (∀ c p e e', Derives c p e → Derives c p e' → e = e') := by
  refine ⟨fun hknown => ?_, exists_invalid_iff, fun e => invalid_is_syntaxError,
    fun p st st' => Sentence.unique, fun c p e e' => Derives.unique⟩
  rw [ofTokens_of_known hknown]
  refine ⟨fun n st => ?_, fun n => ?_, fun c => ?_, ?_⟩
  · rw [ofKnownTokens_eq_iff (by simp)]
    constructor
    · intro h
      cases h with
      | @numbered p st n rest hs => exact ⟨p, rest, rfl, hs⟩
    · rintro ⟨p, rest, rfl, hs⟩
      exact .numbered n rest hs
  · rw [ofKnownTokens_eq_iff (by simp)]
    constructor
    · intro h
      cases h with
      | delete n rest => exact ⟨rest, rfl⟩
    · rintro ⟨rest, rfl⟩
      exact .delete n rest
  · rw [ofKnownTokens_eq_iff (by simp)]
    constructor
    · intro h
      cases h with
      | command c rest => exact ⟨rest, rfl⟩
    · rintro ⟨rest, rfl⟩
      exact .command c rest
  · rw [ofKnownTokens_eq_iff (by simp)]
    constructor
    · intro h
      cases h with
      | empty => exact .inl rfl
      | blank rest => exact .inr ⟨rest, rfl⟩
    · rintro (rfl | ⟨rest, rfl⟩)
      · exact .empty
      · exact .blank rest

end Line

end LineBasic
