import LineBasic.Proofs.Grammar
import LineBasic.Proofs.Reading

/-!
# Reading recognizes the grammar of expressions

Soundness goes by induction on the number of tokens: what a reader takes is derived, and the tokens
it takes are those in front of the ones it leaves. Completeness goes by induction on the derivation,
and has to say how far the readers look: a reader takes all the operators that it can, so a
derivation is found only in front of tokens that cannot extend it.
-/
namespace LineBasic

open Grammar

def Grammar.Category.reader : Category → Reader
  | .comparison => Expr.comparison
  | .additive => Expr.sum
  | .multiplicative => Expr.product
  | .unary => Expr.signed
  | .power => Expr.power
  | .primary => Expr.primary

theorem Operator.level_eq_comparison_iff {o : Operator} :
    o.level = .comparison ↔ o ∈ [Operator.equal, .less, .greater] := by
  cases o <;> decide

theorem Operator.level_eq_sum_iff {o : Operator} :
    o.level = .sum ↔ o ∈ [Operator.add, .subtract] := by
  cases o <;> decide

theorem Operator.level_eq_product_iff {o : Operator} :
    o.level = .product ↔ o ∈ [Operator.multiply, .divide] := by
  cases o <;> decide

theorem Operator.level_eq_power_iff {o : Operator} : o.level = .power ↔ o = .power := by
  cases o <;> decide

/-! ## Soundness -/

/-- Some tokens in front of `rest` are derived in the category, with the tree `e`. -/
def DerivedUpTo (c : Category) (ts : List Token) (e : Expr) (rest : List Token) : Prop :=
  ∃ p, ts = p ++ rest ∧ Derives c p e

theorem DerivedUpTo.mono {c d : Category} {ts rest : List Token} {e : Expr}
    (hcd : ∀ {p}, Derives c p e → Derives d p e) (h : DerivedUpTo c ts e rest) :
    DerivedUpTo d ts e rest := by
  obtain ⟨p, hp, he⟩ := h
  exact ⟨p, hp, hcd he⟩

theorem DerivedUpTo.join {c d f : Category} {ts after rest : List Token} {o : Operator} {a b : Expr}
    (hrule : ∀ {p q}, Derives c p a → Derives d q b →
      Derives f (p ++ .operator o :: q) (.binary o a b))
    (ha : DerivedUpTo c ts a (.operator o :: after)) (hb : DerivedUpTo d after b rest) :
    DerivedUpTo f ts (.binary o a b) rest := by
  obtain ⟨p, rfl, hp⟩ := ha
  obtain ⟨q, rfl, hq⟩ := hb
  exact ⟨p ++ .operator o :: q, by simp, hrule hp hq⟩

/-- What the reader of the category takes from `ts` is derived. -/
def SoundOn (c : Category) (ts : List Token) : Prop :=
  ∀ e rest, Reads c.reader ts e rest → DerivedUpTo c ts e rest

section Soundness

variable {ts : List Token}

theorem Chain.derived {l : Level} {c d : Category}
    (hrule : ∀ {o p q a b}, o.level = l → Derives c p a → Derives d q b →
      Derives c (p ++ .operator o :: q) (.binary o a b))
    (ih : ∀ us, us.length < ts.length → SoundOn d us) {a e : Expr} {mid rest : List Token}
    (h : Chain l d.reader a mid e rest) (hmid : mid.length < ts.length)
    (ha : DerivedUpTo c ts a mid) : DerivedUpTo c ts e rest := by
  induction h with
  | stop _ => exact ha
  | more ho hb _ ihc =>
    have hafter := Nat.lt_of_succ_lt hmid
    exact ihc (Nat.lt_trans hb.shorter hafter) (ha.join (hrule ho) (ih _ hafter _ _ hb))

theorem Tail.derived {l : Level} {c d f : Category}
    (hrule : ∀ {o p q a b}, o.level = l → Derives c p a → Derives d q b →
      Derives f (p ++ .operator o :: q) (.binary o a b))
    (hunit : ∀ {p e}, Derives c p e → Derives f p e)
    (ih : ∀ us, us.length < ts.length → SoundOn d us) {a e : Expr} {mid rest : List Token}
    (h : Tail l d.reader a mid e rest) (hmid : mid.length < ts.length)
    (ha : DerivedUpTo c ts a mid) : DerivedUpTo f ts e rest := by
  cases h with
  | stop _ => exact ha.mono hunit
  | once ho hb => exact ha.join (hrule ho) (ih _ (Nat.lt_of_succ_lt hmid) _ _ hb)

theorem soundOn_primary (ih : ∀ us, us.length < ts.length → SoundOn .comparison us) :
    SoundOn .primary ts := by
  intro e rest h
  rcases Expr.reads_primary_iff.mp h with ⟨name, rfl, rfl⟩ | ⟨n, rfl, rfl⟩ | ⟨after, rfl, hin⟩
  · exact ⟨[.ident name], rfl, .ident name⟩
  · exact ⟨[.integer n], rfl, .integer n⟩
  · obtain ⟨p, rfl, hp⟩ := ih after (Nat.lt_succ_self _) e _ hin
    exact ⟨.leftParen :: p ++ [.rightParen], by simp, .parenthesized hp⟩

theorem soundOn_power (ih : ∀ us, us.length < ts.length → SoundOn .unary us)
    (hp : SoundOn .primary ts) : SoundOn .power ts := by
  intro e rest h
  obtain ⟨a, mid, ha, htail⟩ := Expr.reads_power_iff.mp h
  refine htail.derived (c := .primary) (d := .unary) ?_ .ofPrimary ih ha.shorter (hp a mid ha)
  intro o p q a b ho hp hq
  rw [Operator.level_eq_power_iff.mp ho]
  exact .raise hp hq

theorem soundOn_unary (ih : ∀ us, us.length < ts.length → SoundOn .unary us)
    (hp : SoundOn .power ts) : SoundOn .unary ts := by
  intro e rest h
  by_cases hc : Continues .sum ts
  · obtain ⟨o, after, rfl, ho⟩ := hc
    have hafter := Nat.lt_succ_self after.length
    cases o <;> cases ho
    · obtain ⟨a, ha, rfl⟩ := Expr.reads_signed_add_iff.mp h
      obtain ⟨p, rfl, hder⟩ := ih after hafter a rest ha
      exact ⟨.operator .add :: p, rfl, .plus hder⟩
    · obtain ⟨a, ha, rfl⟩ := Expr.reads_signed_subtract_iff.mp h
      obtain ⟨p, rfl, hder⟩ := ih after hafter a rest ha
      exact ⟨.operator .subtract :: p, rfl, .minus hder⟩
  · exact (hp e rest ((Expr.reads_signed_iff_power hc).mp h)).mono .ofPower

theorem soundOn_multiplicative (ih : ∀ us, us.length < ts.length → SoundOn .unary us)
    (hu : SoundOn .unary ts) : SoundOn .multiplicative ts := by
  intro e rest h
  obtain ⟨a, mid, ha, hchain⟩ := Expr.reads_product_iff.mp h
  exact hchain.derived (d := .unary) (fun ho => .multiply (Operator.level_eq_product_iff.mp ho)) ih
    ha.shorter ((hu a mid ha).mono .ofUnary)

theorem soundOn_additive (ih : ∀ us, us.length < ts.length → SoundOn .multiplicative us)
    (hm : SoundOn .multiplicative ts) : SoundOn .additive ts := by
  intro e rest h
  obtain ⟨a, mid, ha, hchain⟩ := Expr.reads_sum_iff.mp h
  exact hchain.derived (d := .multiplicative) (fun ho => .add (Operator.level_eq_sum_iff.mp ho)) ih
    ha.shorter ((hm a mid ha).mono .ofMultiplicative)

theorem soundOn_comparison (ih : ∀ us, us.length < ts.length → SoundOn .additive us)
    (hs : SoundOn .additive ts) : SoundOn .comparison ts := by
  intro e rest h
  obtain ⟨a, mid, ha, htail⟩ := Expr.reads_comparison_iff.mp h
  exact htail.derived (c := .additive) (d := .additive)
    (fun ho => .compare (Operator.level_eq_comparison_iff.mp ho)) .ofAdditive ih ha.shorter
    (hs a mid ha)

end Soundness

theorem soundOn (c : Category) (ts : List Token) : SoundOn c ts := by
  -- All categories at once, as the tightest one leads back to the loosest on fewer tokens.
  suffices h : ∀ c, SoundOn c ts from h c
  induction hn : ts.length using Nat.strongRecOn generalizing ts with
  | _ n ih =>
    have shorter (d : Category) (us : List Token) (hus : us.length < ts.length) : SoundOn d us :=
      ih us.length (hn ▸ hus) us rfl d
    have hprimary := soundOn_primary (shorter .comparison)
    have hpower := soundOn_power (shorter .unary) hprimary
    have hunary := soundOn_unary (shorter .unary) hpower
    have hmultiplicative := soundOn_multiplicative (shorter .unary) hunary
    have hadditive := soundOn_additive (shorter .multiplicative) hmultiplicative
    have hcomparison := soundOn_comparison (shorter .additive) hadditive
    intro c
    cases c <;> assumption

/-! ## Completeness -/

/-- The levels of the operators that the reader of a category takes into an expression. -/
def Grammar.Category.levels : Category → List Level
  | .comparison => [.comparison, .sum, .product, .power]
  | .additive => [.sum, .product, .power]
  | .multiplicative => [.product, .power]
  | .unary => [.power]
  | .power => [.power]
  | .primary => []

/-- The sequence cannot extend an expression of the category. -/
def Stops (c : Category) (ts : List Token) : Prop :=
  ∀ l ∈ c.levels, ¬ Continues l ts

namespace Stops

variable {c d : Category} {ts : List Token}

theorem mono (h : Stops c ts) (hdc : d.levels ⊆ c.levels) : Stops d ts :=
  fun l hl => h l (hdc hl)

theorem of_operator {o : Operator} (ho : o.level ∉ c.levels) : Stops c (.operator o :: ts) := by
  rintro l hl ⟨o', after, heq, rfl⟩
  cases heq
  exact ho hl

theorem of_no_operator (h : ∀ o after, ts ≠ .operator o :: after) : Stops c ts := by
  rintro l _ ⟨o, after, heq, _⟩
  exact h o after heq

end Stops

/-- The reader of the category finds the expression in front of all tokens that cannot extend it.
In the categories that repeat, the reader goes on from there as from an operand of its own. -/
def Completes : Category → List Token → Expr → Prop
  | .additive, p, a => ∀ mid e rest, Stops .multiplicative mid →
      Chain .sum Expr.product a mid e rest → Reads Expr.sum (p ++ mid) e rest
  | .multiplicative, p, a => ∀ mid e rest, Stops .unary mid →
      Chain .product Expr.signed a mid e rest → Reads Expr.product (p ++ mid) e rest
  | c, p, e => ∀ rest, Stops c rest → Reads c.reader (p ++ rest) e rest

theorem Completes.reads {c : Category} {p rest : List Token} {e : Expr} (h : Completes c p e)
    (hs : Stops c rest) : Reads c.reader (p ++ rest) e rest := by
  cases c with
  | additive => exact h rest e rest (hs.mono (by decide)) (.stop (hs .sum (by decide)))
  | multiplicative => exact h rest e rest (hs.mono (by decide)) (.stop (hs .product (by decide)))
  | comparison | unary | power | primary => exact h rest hs

theorem Grammar.Derives.not_continues_primary {p : List Token} {e : Expr}
    (h : Derives .primary p e) (l : Level) (rest : List Token) : ¬ Continues l (p ++ rest) := by
  rintro ⟨o, after, heq, _⟩
  cases h <;> cases heq

theorem Grammar.Derives.not_continues_power {p : List Token} {e : Expr}
    (h : Derives .power p e) (l : Level) (rest : List Token) : ¬ Continues l (p ++ rest) := by
  cases h with
  | ofPrimary hp => exact hp.not_continues_primary l rest
  | raise hp _ =>
    rw [List.append_assoc]
    exact hp.not_continues_primary l _

theorem completes {c : Category} {p : List Token} {e : Expr} (h : Derives c p e) :
    Completes c p e := by
  induction h with
  | ofAdditive _ ih =>
    intro rest hs
    exact Expr.reads_comparison_iff.mpr
      ⟨_, rest, ih.reads (hs.mono (by decide)), .stop (hs .comparison (by decide))⟩
  | @compare o p q a b ho _ _ ihp ihq =>
    intro rest hs
    have hl := Operator.level_eq_comparison_iff.mpr ho
    have ha : Stops .additive (.operator o :: (q ++ rest)) := .of_operator (by rw [hl]; decide)
    rw [List.append_assoc]
    exact Expr.reads_comparison_iff.mpr
      ⟨a, _, ihp.reads ha, .once hl (ihq.reads (hs.mono (by decide)))⟩
  | ofMultiplicative _ ih =>
    intro mid e rest hs hchain
    exact Expr.reads_sum_iff.mpr ⟨_, mid, ih.reads hs, hchain⟩
  | @add o p q a b ho _ _ ihp ihq =>
    intro mid e rest hs hchain
    have hl := Operator.level_eq_sum_iff.mpr ho
    have ha : Stops .multiplicative (.operator o :: (q ++ mid)) := .of_operator (by rw [hl]; decide)
    rw [List.append_assoc]
    exact ihp _ e rest ha (.more hl (ihq.reads hs) hchain)
  | ofUnary _ ih =>
    intro mid e rest hs hchain
    exact Expr.reads_product_iff.mpr ⟨_, mid, ih.reads hs, hchain⟩
  | @multiply o p q a b ho _ _ ihp ihq =>
    intro mid e rest hs hchain
    have hl := Operator.level_eq_product_iff.mpr ho
    have ha : Stops .unary (.operator o :: (q ++ mid)) := .of_operator (by rw [hl]; decide)
    rw [List.append_assoc]
    exact ihp _ e rest ha (.more hl (ihq.reads hs) hchain)
  | minus _ ih =>
    intro rest hs
    exact Expr.reads_signed_subtract_iff.mpr ⟨_, ih rest hs, rfl⟩
  | plus _ ih =>
    intro rest hs
    exact Expr.reads_signed_add_iff.mpr ⟨_, ih rest hs, rfl⟩
  | ofPower hp ih =>
    intro rest hs
    exact (Expr.reads_signed_iff_power (hp.not_continues_power .sum rest)).mpr (ih rest hs)
  | ofPrimary _ ih =>
    intro rest hs
    exact Expr.reads_power_iff.mpr
      ⟨_, rest, ih.reads (hs.mono (by decide)), .stop (hs .power (by decide))⟩
  | @raise p q a b _ _ ihp ihq =>
    intro rest hs
    have ha : Stops .primary (.operator .power :: (q ++ rest)) := .of_operator (by decide)
    rw [List.append_assoc]
    exact Expr.reads_power_iff.mpr ⟨a, _, ihp.reads ha, .once rfl (ihq.reads hs)⟩
  | ident name =>
    intro rest _
    exact Expr.reads_primary_iff.mpr (.inl ⟨name, rfl, rfl⟩)
  | integer n =>
    intro rest _
    exact Expr.reads_primary_iff.mpr (.inr (.inl ⟨n, rfl, rfl⟩))
  | @parenthesized p e _ ih =>
    intro rest _
    have hin : Stops .comparison (.rightParen :: rest) := .of_no_operator (by simp)
    refine Expr.reads_primary_iff.mpr (.inr (.inr ⟨p ++ .rightParen :: rest, by simp, ?_⟩))
    exact ih.reads hin

/-- An expression in front of tokens that are no operator is read in one way. -/
theorem reads_comparison_iff_derived {ts rest : List Token} {e : Expr}
    (hr : ∀ o after, rest ≠ .operator o :: after) :
    Reads Expr.comparison ts e rest ↔ DerivedUpTo .comparison ts e rest := by
  constructor
  · exact soundOn .comparison ts e rest
  · rintro ⟨p, rfl, hp⟩
    exact (completes hp).reads (.of_no_operator hr)

end LineBasic
