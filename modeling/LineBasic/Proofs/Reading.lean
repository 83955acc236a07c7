import LineBasic.Expr.Parse

/-!
# What the readers of expressions do

Each reader is opened once here, and told as a relation between the tokens it is given, the tree it
builds and the tokens it leaves. The two repetitions, over sums and over products, are one relation,
`Chain`; the two places where an operator may follow once, after a sum and after a primary, are
another, `Tail`. Later modules use the relations only.
-/
namespace LineBasic

theorem bind_eq_ok_iff {ε α β : Type} {x : Except ε α} {f : α → Except ε β} {b : β} :
    (x >>= f) = .ok b ↔ ∃ a, x = .ok a ∧ f a = .ok b := by
  cases x with
  | error fault => simp [bind, Except.bind]
  | ok a => simp [bind, Except.bind]

theorem ok_bind {ε α β : Type} (a : α) (f : α → Except ε β) : (Except.ok a >>= f) = f a := rfl

/-- A reader takes an expression from the front of a token sequence. -/
abbrev Reader := (ts : List Token) → Except SyntaxFault (Parsed Expr ts)

/-- The reader takes `e` from the front of `ts` and leaves `rest`. -/
def Reads (read : Reader) (ts : List Token) (e : Expr) (rest : List Token) : Prop :=
  ∃ q, read ts = .ok q ∧ q.value = e ∧ q.rest = rest

namespace Reads

variable {read : Reader} {ts rest rest' : List Token} {e e' : Expr}

theorem unique (h : Reads read ts e rest) (h' : Reads read ts e' rest') :
    e = e' ∧ rest = rest' := by
  obtain ⟨q, hq, rfl, rfl⟩ := h
  obtain ⟨q', hq', rfl, rfl⟩ := h'
  obtain rfl : q = q' := Except.ok.inj (hq.symm.trans hq')
  exact ⟨rfl, rfl⟩

theorem shorter (h : Reads read ts e rest) : rest.length < ts.length := by
  obtain ⟨q, _, _, rfl⟩ := h
  exact q.shorter

theorem cons_iff {t : Token} {f : Expr → Expr}
    (hread : read (t :: ts) = read ts >>= fun operand => .ok ((operand.map f).cons t)) :
    Reads read (t :: ts) e rest ↔ ∃ a, Reads read ts a rest ∧ e = f a := by
  constructor
  · rintro ⟨q, hq, rfl, rfl⟩
    rw [hread] at hq
    obtain ⟨operand, hop, hq⟩ := bind_eq_ok_iff.mp hq
    rw [← Except.ok.inj hq]
    exact ⟨operand.value, ⟨operand, hop, rfl, rfl⟩, rfl⟩
  · rintro ⟨a, ⟨operand, hop, rfl, rfl⟩, rfl⟩
    refine ⟨(operand.map f).cons t, ?_, rfl, rfl⟩
    rw [hread, hop]
    rfl

end Reads

/-- The sequence goes on with an operator of the level. -/
def Continues (l : Level) (ts : List Token) : Prop :=
  ∃ o after, ts = .operator o :: after ∧ o.level = l

/-- With `a` read and `mid` left, operands joined at the level `l` are taken in as long as they
follow, which gives `e` and leaves `rest`. -/
inductive Chain (l : Level) (operand : Reader) :
    Expr → List Token → Expr → List Token → Prop
  | stop {a mid} : ¬ Continues l mid → Chain l operand a mid a mid
  | more {o a b e after mid rest} : o.level = l → Reads operand after b mid →
      Chain l operand (.binary o a b) mid e rest →
      Chain l operand a (.operator o :: after) e rest

/-- With `a` read and `mid` left, at most one more operand is joined at the level `l`. -/
inductive Tail (l : Level) (operand : Reader) :
    Expr → List Token → Expr → List Token → Prop
  | stop {a mid} : ¬ Continues l mid → Tail l operand a mid a mid
  | once {o a b after rest} : o.level = l → Reads operand after b rest →
      Tail l operand a (.operator o :: after) (.binary o a b) rest

/-! ## Repetitions -/

/-- The function repeats at the level `l`: it hands back what has been read when no operator of the
level follows, and joins the next operand when one does. -/
structure Repeats (l : Level) (operand : Reader)
    (loop : ∀ {ts}, Parsed Expr ts → Except SyntaxFault (Parsed Expr ts)) : Prop where
  stop : ∀ {ts} (left : Parsed Expr ts), ¬ Continues l left.rest → loop left = .ok left
  more : ∀ {ts after o} (left : Parsed Expr ts) (h : left.rest = .operator o :: after),
    o.level = l → loop left = operand after >>= fun right => loop (left.join (.binary o) h right)

namespace Repeats

variable {l : Level} {operand : Reader}
variable {loop : ∀ {ts}, Parsed Expr ts → Except SyntaxFault (Parsed Expr ts)}

/-- A function that looks at the next token, and goes on if it is an operator of the level. -/
theorem of_unfold (hloop : ∀ {ts} (left : Parsed Expr ts), loop left =
    match hr : left.rest with
    | .operator o :: after =>
      if o.level = l then operand after >>= fun right => loop (left.join (.binary o) hr right)
      else .ok left
    | _ => .ok left) : Repeats l operand loop where
  stop left hc := by
    rw [hloop]
    split
    · rename_i o after hr
      rw [if_neg fun ho => hc ⟨o, after, hr, ho⟩]
    · rfl
  more left h ho := by
    rw [hloop]
    split
    · rename_i o' after' hr
      obtain ⟨ho', rfl⟩ := List.cons.inj (hr.symm.trans h)
      cases ho'
      rw [if_pos ho]
    · rename_i hne
      exact absurd h (hne _ _)

theorem chain_of_eq_ok (hl : Repeats l operand loop) {ts : List Token} {left q : Parsed Expr ts}
    (h : loop left = .ok q) : Chain l operand left.value left.rest q.value q.rest := by
  induction hn : left.rest.length using Nat.strongRecOn generalizing left with
  | _ n ih =>
    by_cases hc : Continues l left.rest
    · obtain ⟨o, after, hr, ho⟩ := hc
      rw [hl.more left hr ho] at h
      obtain ⟨right, hright, h⟩ := bind_eq_ok_iff.mp h
      have hlt : right.rest.length < n := by
        have := right.shorter
        rw [hr, List.length_cons] at hn
        omega
      have hchain := ih right.rest.length hlt h rfl
      rw [hr]
      exact .more ho ⟨right, hright, rfl, rfl⟩ hchain
    · rw [hl.stop left hc] at h
      obtain rfl := Except.ok.inj h
      exact .stop hc

theorem eq_ok_of_chain (hl : Repeats l operand loop) {ts : List Token} {a e : Expr}
    {mid rest : List Token} (h : Chain l operand a mid e rest) (left : Parsed Expr ts)
    (hv : left.value = a) (hr : left.rest = mid) :
    ∃ q, loop left = .ok q ∧ q.value = e ∧ q.rest = rest := by
  induction h generalizing left with
  | stop hc =>
    rw [← hr] at hc
    exact ⟨left, hl.stop left hc, hv, hr⟩
  | more ho hb _ ih =>
    obtain ⟨right, hright, hrv, hrr⟩ := hb
    obtain ⟨q, hq, hqv, hqr⟩ := ih (left.join (.binary _) hr right)
      (by rw [← hv, ← hrv]; rfl) hrr
    refine ⟨q, ?_, hqv, hqr⟩
    rw [hl.more left hr ho]
    exact bind_eq_ok_iff.mpr ⟨right, hright, hq⟩

theorem reads_iff (hl : Repeats l operand loop) {ts : List Token} {e : Expr} {rest : List Token} :
    Reads (fun ts => operand ts >>= loop) ts e rest ↔
      ∃ a mid, Reads operand ts a mid ∧ Chain l operand a mid e rest := by
  constructor
  · rintro ⟨q, hq, rfl, rfl⟩
    obtain ⟨left, hleft, hq⟩ := bind_eq_ok_iff.mp hq
    exact ⟨left.value, left.rest, ⟨left, hleft, rfl, rfl⟩, hl.chain_of_eq_ok hq⟩
  · rintro ⟨a, mid, ⟨left, hleft, hv, hr⟩, hchain⟩
    obtain ⟨q, hq, hqv, hqr⟩ := hl.eq_ok_of_chain hchain left hv hr
    exact ⟨q, bind_eq_ok_iff.mpr ⟨left, hleft, hq⟩, hqv, hqr⟩

end Repeats

/-! ## Operators that follow once -/

/-- The reader takes an operand by `first`, and joins one more by `operand` when an operator of the
level `l` follows. -/
structure JoinsOnce (l : Level) (first operand read : Reader) : Prop where
  fails : ∀ {ts fault}, first ts = .error fault → read ts = .error fault
  stop : ∀ {ts} {left : Parsed Expr ts}, first ts = .ok left → ¬ Continues l left.rest →
    read ts = .ok left
  once : ∀ {ts after o} {left : Parsed Expr ts}, first ts = .ok left →
    ∀ h : left.rest = .operator o :: after, o.level = l →
      read ts = operand after >>= fun right => .ok (left.join (.binary o) h right)

theorem JoinsOnce.reads_iff {l : Level} {first operand read : Reader}
    (hj : JoinsOnce l first operand read) {ts rest : List Token} {e : Expr} :
    Reads read ts e rest ↔ ∃ a mid, Reads first ts a mid ∧ Tail l operand a mid e rest := by
  constructor
  · rintro ⟨q, hq, rfl, rfl⟩
    cases hfirst : first ts with
    | error fault => cases (hj.fails hfirst).symm.trans hq
    | ok left =>
      refine ⟨left.value, left.rest, ⟨left, hfirst, rfl, rfl⟩, ?_⟩
      by_cases hc : Continues l left.rest
      · obtain ⟨o, after, hr, ho⟩ := hc
        rw [hj.once hfirst hr ho] at hq
        obtain ⟨right, hright, hq⟩ := bind_eq_ok_iff.mp hq
        have hread : Reads operand after right.value right.rest := ⟨right, hright, rfl, rfl⟩
        rw [← Except.ok.inj hq, hr]
        exact .once ho hread
      · rw [← Except.ok.inj ((hj.stop hfirst hc).symm.trans hq)]
        exact .stop hc
  · rintro ⟨a, mid, ⟨left, hfirst, rfl, hmid⟩, htail⟩
    cases htail with
    | stop hc => exact ⟨left, hj.stop hfirst (hmid ▸ hc), rfl, hmid⟩
    | once ho hb =>
      obtain ⟨right, hright, rfl, rfl⟩ := hb
      refine ⟨left.join (.binary _) hmid right, ?_, rfl, rfl⟩
      rw [hj.once hfirst hmid ho]
      exact bind_eq_ok_iff.mpr ⟨right, hright, rfl⟩

/-! ## The readers -/

namespace Expr

theorem sumFrom_repeats : Repeats .sum product sumFrom :=
  .of_unfold fun left => by rw [sumFrom]; rfl

theorem productFrom_repeats : Repeats .product signed productFrom :=
  .of_unfold fun left => by rw [productFrom]; rfl

variable {ts rest : List Token} {e : Expr}

theorem reads_sum_iff : Reads sum ts e rest ↔
    ∃ a mid, Reads product ts a mid ∧ Chain .sum product a mid e rest := by
  rw [← sumFrom_repeats.reads_iff]
  simp only [Reads, sum]

theorem reads_product_iff : Reads product ts e rest ↔
    ∃ a mid, Reads signed ts a mid ∧ Chain .product signed a mid e rest := by
  rw [← productFrom_repeats.reads_iff]
  simp only [Reads, product]

theorem comparison_joinsOnce : JoinsOnce .comparison sum sum comparison where
  fails h := by
    rw [comparison, h]
    rfl
  stop {ts left} h hc := by
    rw [comparison, h, ok_bind]
    split
    · rename_i o after hr
      rw [if_neg fun ho => hc ⟨o, after, hr, ho⟩]
      rfl
    · rfl
  once {ts after o left} h hr ho := by
    rw [comparison, h, ok_bind]
    split
    · rename_i o' after' hr'
      cases hr.symm.trans hr'
      rw [if_pos ho]
      rfl
    · rename_i hne
      exact absurd hr (hne _ _)

theorem power_joinsOnce : JoinsOnce .power primary signed power where
  fails h := by
    rw [power, h]
    rfl
  stop {ts left} h hc := by
    rw [power, h, ok_bind]
    split
    · rename_i after hr
      exact absurd ⟨.power, after, hr, rfl⟩ hc
    · rfl
  once {ts after o left} h hr ho := by
    obtain rfl : o = .power := by cases o <;> first | rfl | cases ho
    rw [power, h, ok_bind]
    split
    · rename_i after' hr'
      cases hr.symm.trans hr'
      rfl
    · rename_i hne
      exact absurd hr (hne _)

theorem reads_comparison_iff : Reads comparison ts e rest ↔
    ∃ a mid, Reads sum ts a mid ∧ Tail .comparison sum a mid e rest :=
  comparison_joinsOnce.reads_iff

theorem reads_power_iff : Reads power ts e rest ↔
    ∃ a mid, Reads primary ts a mid ∧ Tail .power signed a mid e rest :=
  power_joinsOnce.reads_iff

theorem reads_signed_subtract_iff : Reads signed (.operator .subtract :: ts) e rest ↔
    ∃ a, Reads signed ts a rest ∧ e = .negation a :=
  Reads.cons_iff (by rw [signed]; rfl)

theorem reads_signed_add_iff : Reads signed (.operator .add :: ts) e rest ↔
    ∃ a, Reads signed ts a rest ∧ e = .identity a :=
  Reads.cons_iff (by rw [signed]; rfl)

theorem reads_signed_iff_power (h : ¬ Continues .sum ts) :
    Reads signed ts e rest ↔ Reads power ts e rest := by
  have hs : signed ts = power ts := by
    refine signed.eq_3 ts (fun after heq => ?_) (fun after heq => ?_)
    · exact h ⟨.subtract, after, heq, rfl⟩
    · exact h ⟨.add, after, heq, rfl⟩
  rw [Reads, Reads, hs]

theorem reads_primary_iff : Reads primary ts e rest ↔
    (∃ name, ts = .ident name :: rest ∧ e = .var name) ∨
      (∃ n, ts = .integer n :: rest ∧ e = .integer n) ∨
      ∃ after, ts = .leftParen :: after ∧ Reads comparison after e (.rightParen :: rest) := by
  constructor
  · rintro ⟨q, hq, rfl, rfl⟩
    unfold primary at hq
    split at hq
    · rename_i name after
      rw [← Except.ok.inj hq]
      exact .inl ⟨name, rfl, rfl⟩
    · rename_i n after
      rw [← Except.ok.inj hq]
      exact .inr (.inl ⟨n, rfl, rfl⟩)
    · rename_i after
      obtain ⟨inner, hinner, hq⟩ := bind_eq_ok_iff.mp hq
      split at hq
      · rename_i right hr
        rw [← Except.ok.inj hq]
        exact .inr (.inr ⟨after, rfl, inner, hinner, rfl, hr⟩)
      · cases hq
    · cases hq
  · rintro (⟨name, rfl, rfl⟩ | ⟨n, rfl, rfl⟩ | ⟨after, rfl, inner, hinner, rfl, hr⟩)
    · exact ⟨_, by rw [primary]; rfl, rfl, rfl⟩
    · exact ⟨_, by rw [primary]; rfl, rfl, rfl⟩
    · refine ⟨(inner.skip hr).cons _, ?_, rfl, rfl⟩
      rw [primary, hinner, ok_bind]
      split
      · rename_i right hr'
        cases hr.symm.trans hr'
        rfl
      · rename_i hne
        exact absurd hr (hne _)

end Expr

end LineBasic
