import Mathlib.Data.Set.Function
import Credence.Proofs.Pattern.Rename
import Credence.Proofs.Pattern.Tokens
/-!
# Texts and keys of patterns

A text can be read back: the first character tells what follows, kinds end where their
letters end, a quoted name ends at the first quote that is not escaped, and a variable
ends where its symbol does. So patterns whose variables are symbols that begin with `$`
have different texts, whatever the names of their nodes and the numbers of children of
their links.

A key is such a text, that of the pattern with its variables named by their places. It is
shared by the patterns that differ in the names of their variables, and by no others; a
ground pattern shares it with none.
-/

namespace Credence

/-- Lists that end at the first character of another sort are told apart by it. -/
theorem append_cons_inj {α : Type} {p : α → Prop} {xs ys : List α} {a b : α} {r r' : List α}
    (hx : ∀ x ∈ xs, p x) (hy : ∀ y ∈ ys, p y) (ha : ¬ p a) (hb : ¬ p b)
    (h : xs ++ a :: r = ys ++ b :: r') : xs = ys ∧ a = b ∧ r = r' := by
  induction xs generalizing ys with
  | nil =>
    cases ys with
    | nil =>
      obtain ⟨hab, hr⟩ := List.cons.inj h
      exact ⟨rfl, hab, hr⟩
    | cons y ys =>
      obtain ⟨hay, _⟩ := List.cons.inj h
      exact absurd (hay ▸ hy y (List.mem_cons_self ..)) ha
  | cons x xs ih =>
    cases ys with
    | nil =>
      obtain ⟨hxb, _⟩ := List.cons.inj h
      exact absurd (hxb ▸ hx x (List.mem_cons_self ..)) hb
    | cons y ys =>
      obtain ⟨hxy, ht⟩ := List.cons.inj h
      obtain ⟨hxs, hab, hr⟩ := ih (fun z hz => hx z (List.mem_cons_of_mem _ hz))
        (fun z hz => hy z (List.mem_cons_of_mem _ hz)) ht
      exact ⟨by rw [hxy, hxs], hab, hr⟩

theorem toString_injective {m n : Nat} (h : (toString m).toList = (toString n).toList) :
    m = n := by
  rw [Nat.toString_eq_repr, Nat.toString_eq_repr, Nat.toList_repr, Nat.toList_repr] at h
  rw [← Nat.ofDigitChars_ten_toDigits (n := m), h, Nat.ofDigitChars_ten_toDigits]

theorem toString_inj {m n : Nat} (h : toString m = toString n) : m = n :=
  toString_injective (congrArg String.toList h)

theorem Kind.isAlpha_name (k : Kind) : ∀ c ∈ k.name.toList, c.isAlpha = true := by
  have hall : k.name.toList.all Char.isAlpha = true := by
    rcases k with k | k <;> cases k <;> rfl
  exact List.all_eq_true.1 hall

theorem Kind.name_injective {k l : Kind} (h : k.name = l.name) : k = l := by
  have hk := Kind.ofKeyword?_name k
  rw [h, Kind.ofKeyword?_name l] at hk
  exact (Option.some.inj hk).symm

namespace Pattern

theorem kind_append_inj {k l : Kind} {a b : Char} {r r' : List Char} (ha : ¬ a.isAlpha = true)
    (hb : ¬ b.isAlpha = true) (h : k.name.toList ++ a :: r = l.name.toList ++ b :: r') :
    k = l ∧ a = b ∧ r = r' := by
  obtain ⟨hname, hab, hr⟩ := append_cons_inj (p := fun c => c.isAlpha = true) k.isAlpha_name
    l.isAlpha_name ha hb h
  exact ⟨Kind.name_injective (String.toList_inj.1 hname), hab, hr⟩

theorem escape_append_inj {cs ds r r' : List Char}
    (h : escape cs ++ '"' :: r = escape ds ++ '"' :: r') : cs = ds ∧ r = r' := by
  induction cs generalizing ds with
  | nil =>
    cases ds with
    | nil => exact ⟨rfl, (List.cons.inj h).2⟩
    | cons d ds =>
      unfold escape at h
      split at h
      · exact absurd (List.cons.inj h).1 (by decide)
      · next hd => exact absurd (List.cons.inj h).1 (by rintro rfl; exact hd rfl)
  | cons c cs ih =>
    cases ds with
    | nil =>
      unfold escape at h
      split at h
      · exact absurd (List.cons.inj h).1 (by decide)
      · next hc => exact absurd (List.cons.inj h).1 (by rintro rfl; exact hc rfl)
    | cons d ds =>
      unfold escape at h
      split at h <;> split at h
      · -- Both characters are escaped, or (below) neither is; a marked one is never a plain one.
        obtain ⟨_, ht⟩ := List.cons.inj h
        obtain ⟨hcd, ht⟩ := List.cons.inj ht
        obtain ⟨hcs, hr⟩ := ih ht
        exact ⟨by rw [hcd, hcs], hr⟩
      · next hd => exact absurd (List.cons.inj h).1 (by rintro rfl; exact hd rfl)
      · next hc _ => exact absurd (List.cons.inj h).1 (by rintro rfl; exact hc rfl)
      · obtain ⟨hcd, ht⟩ := List.cons.inj h
        obtain ⟨hcs, hr⟩ := ih ht
        exact ⟨by rw [hcd, hcs], hr⟩

theorem quote_append_inj {m n : String} {r r' : List Char} (h : quote m ++ r = quote n ++ r') :
    m = n ∧ r = r' := by
  unfold quote at h
  simp only [List.cons_append, List.append_assoc, List.nil_append, List.cons.injEq, true_and] at h
  obtain ⟨hmn, hr⟩ := escape_append_inj h
  exact ⟨String.toList_inj.1 hmn, hr⟩

/-! ## Variables -/

/-- Whether a text is the mark of variables and at least one character more, all of symbols. -/
def IsVariableName (v : String) : Prop :=
  v.toList.head? = some '$' ∧ 2 ≤ v.length ∧ ∀ c ∈ v.toList, isSymbolChar c = true

theorem variable_append_inj {v w : String} {r r' : List Char} (hv : IsVariableName v)
    (hw : IsVariableName w) (hr : AtBreak r) (hr' : AtBreak r')
    (h : v.toList ++ r = w.toList ++ r') : v = w ∧ r = r' := by
  have hword := congrArg (List.takeWhile isSymbolChar) h
  rw [takeWhile_append_break hv.2.2 hr, takeWhile_append_break hw.2.2 hr'] at hword
  obtain rfl := String.toList_inj.1 hword
  exact ⟨rfl, List.append_cancel_left h⟩

theorem variable_append_ne {v : String} {c : Char} {r cs : List Char} (hv : IsVariableName v)
    (hc : c ≠ '$') : v.toList ++ r ≠ c :: cs := by
  intro h
  have hhead := congrArg List.head? h
  rw [List.head?_append, hv.1] at hhead
  exact hc (Option.some.inj hhead).symm

theorem isSymbolChar_of_isDigit {c : Char} (h : c.isDigit = true) : isSymbolChar c = true := by
  have hrange : 48 ≤ c.toNat ∧ c.toNat ≤ 57 := Char.isDigit_iff_toNat.1 h
  refine isSymbolChar_iff.2 ⟨?_, ?_, ?_, ?_⟩
  · unfold Text.isBlank
    grind
  all_goals
    rintro rfl
    exact absurd h (by decide)

theorem isVariableName_ordinal (names : List String) (v : String) :
    IsVariableName (ordinal names v) := by
  unfold IsVariableName ordinal
  rw [String.toList_append, String.length_append, Nat.toString_eq_repr, Nat.toList_repr]
  refine ⟨rfl, Nat.le_add_right 2 _, List.forall_mem_append.2 ⟨List.all_eq_true.1 rfl, ?_⟩⟩
  intro c hc
  exact isSymbolChar_of_isDigit (Nat.isDigit_of_mem_toDigits (by decide) (by decide) hc)

/-- Variables of a list are told apart by their places. -/
theorem ordinal_injOn (names : List String) : Set.InjOn (ordinal names) {v | v ∈ names} := by
  intro v hv w _ h
  unfold ordinal at h
  exact (List.idxOf_inj hv).1 (toString_inj ((String.append_right_inj _).1 h))

/-! ## Texts -/

theorem atBreak_closing (rest : List Char) : AtBreak (')' :: rest) := by
  rintro c ⟨⟩
  rfl

theorem atBreak_space (rest : List Char) : AtBreak (' ' :: rest) := by
  rintro c ⟨⟩
  rfl

theorem atBreak_renderList (cs : List Pattern) {rest : List Char} (hrest : AtBreak rest) :
    AtBreak (renderList cs ++ rest) := by
  cases cs with
  | nil => exact hrest
  | cons c cs =>
    unfold renderList
    exact atBreak_space _

/-- No text of a pattern begins like a quoted name. -/
theorem render_append_ne_quote {p : Pattern} (hp : ∀ v ∈ p.occurrences, IsVariableName v)
    {n : String} {r r' : List Char} : quote n ++ r ≠ p.render ++ r' := by
  intro h
  cases p with
  | var v => exact variable_append_ne (hp v (List.mem_singleton.2 rfl)) (by decide) h.symm
  | node k m => exact absurd (List.cons.inj h).1 (by decide)
  | link k cs => exact absurd (List.cons.inj h).1 (by decide)

/-- The texts of a node and of a link differ where the name or the children begin. -/
theorem render_node_ne_link {k l : Kind} {n : String} {ds : List Pattern} {r r' : List Char}
    (hds : ∀ v ∈ occurrencesList ds, IsVariableName v) :
    (node k n).render ++ r ≠ (link l ds).render ++ r' := by
  intro h
  cases ds with
  | nil =>
    simp only [render, renderList, List.cons_append, List.append_assoc, List.nil_append,
      List.cons.injEq, true_and] at h
    obtain ⟨_, hab, _⟩ := kind_append_inj (by decide) (by decide) h
    exact absurd hab (by decide)
  | cons d ds =>
    simp only [render, renderList, List.cons_append, List.append_assoc, List.nil_append,
      List.cons.injEq, true_and] at h
    obtain ⟨_, _, ht⟩ := kind_append_inj (by decide) (by decide) h
    exact render_append_ne_quote (fun v hv => hds v (List.mem_append_left _ hv)) ht

mutual

/-- The text of a pattern shows where it ends and which pattern it is of. -/
theorem render_append_inj {p q : Pattern} {r r' : List Char}
    (hp : ∀ v ∈ p.occurrences, IsVariableName v) (hq : ∀ v ∈ q.occurrences, IsVariableName v)
    (hr : AtBreak r) (hr' : AtBreak r') (h : p.render ++ r = q.render ++ r') :
    p = q ∧ r = r' := by
  cases p with
  | var v =>
    have hv : IsVariableName v := hp v (List.mem_singleton.2 rfl)
    cases q with
    | var w =>
      obtain ⟨rfl, hrest⟩ := variable_append_inj hv (hq w (List.mem_singleton.2 rfl)) hr hr' h
      exact ⟨rfl, hrest⟩
    | node l m => exact absurd h (variable_append_ne hv (by decide))
    | link l ds => exact absurd h (variable_append_ne hv (by decide))
  | node k n =>
    cases q with
    | var w =>
      have hw : IsVariableName w := hq w (List.mem_singleton.2 rfl)
      exact absurd h.symm (variable_append_ne hw (by decide))
    | node l m =>
      simp only [render, List.cons_append, List.append_assoc, List.nil_append,
        List.cons.injEq, true_and] at h
      obtain ⟨rfl, _, ht⟩ := kind_append_inj (by decide) (by decide) h
      obtain ⟨hname, hend⟩ := quote_append_inj ht
      exact ⟨by rw [hname], (List.cons.inj hend).2⟩
    | link l ds => exact absurd h (render_node_ne_link hq)
  | link k cs =>
    cases q with
    | var w =>
      have hw : IsVariableName w := hq w (List.mem_singleton.2 rfl)
      exact absurd h.symm (variable_append_ne hw (by decide))
    | node l m => exact absurd h.symm (render_node_ne_link hp)
    | link l ds =>
      simp only [render, List.cons_append, List.append_assoc, List.nil_append, List.cons.injEq,
        true_and] at h
      -- The name of a kind ends at the first character that is not a letter.
      have hkind : k = l := by
        cases cs <;> cases ds <;>
          simp only [renderList, List.cons_append, List.nil_append] at h <;>
          exact (kind_append_inj (by decide) (by decide) h).1
      subst hkind
      obtain ⟨rfl, hrest⟩ := renderList_append_inj hp hq (List.append_cancel_left h)
      exact ⟨rfl, hrest⟩

theorem renderList_append_inj {ps qs : List Pattern} {r r' : List Char}
    (hp : ∀ v ∈ occurrencesList ps, IsVariableName v)
    (hq : ∀ v ∈ occurrencesList qs, IsVariableName v)
    (h : renderList ps ++ ')' :: r = renderList qs ++ ')' :: r') : ps = qs ∧ r = r' := by
  cases ps with
  | nil =>
    cases qs with
    | nil => exact ⟨rfl, (List.cons.inj h).2⟩
    | cons q qs => exact absurd (List.cons.inj h).1 (by decide)
  | cons p ps =>
    cases qs with
    | nil => exact absurd (List.cons.inj h).1 (by decide)
    | cons q qs =>
      obtain ⟨hp, hps⟩ := List.forall_mem_append.1 hp
      obtain ⟨hq, hqs⟩ := List.forall_mem_append.1 hq
      simp only [renderList, List.cons_append, List.append_assoc, List.cons.injEq, true_and] at h
      obtain ⟨rfl, ht⟩ := render_append_inj hp hq
        (atBreak_renderList ps (atBreak_closing r)) (atBreak_renderList qs (atBreak_closing r')) h
      obtain ⟨rfl, hrest⟩ := renderList_append_inj hps hqs ht
      exact ⟨rfl, hrest⟩

end

/-- Different patterns whose variables are spelled as variables have different texts. -/
theorem eq_of_toText {p q : Pattern} (hp : ∀ v ∈ p.occurrences, IsVariableName v)
    (hq : ∀ v ∈ q.occurrences, IsVariableName v) (h : p.toText = q.toText) : p = q := by
  have hend : AtBreak [] := by rintro c ⟨⟩
  exact (render_append_inj hp hq hend hend (congrArg (· ++ []) (String.ofList_injective h))).1

/-- Different ground patterns have different texts. -/
theorem toText_inj {p q : Pattern} (hp : p.isGround = true) (hq : q.isGround = true)
    (h : p.toText = q.toText) : p = q :=
  eq_of_toText (fun v hv => absurd hv (isGround_iff.1 hp v))
    (fun v hv => absurd hv (isGround_iff.1 hq v)) h

/-! ## Keys -/

theorem isVariableName_of_mem_rename {names : List String} {p : Pattern} :
    ∀ v ∈ (p.rename (ordinal names)).occurrences, IsVariableName v := by
  rw [occurrences_rename, List.forall_mem_map]
  exact fun v _ => isVariableName_ordinal names v

/-- A key shows the pattern up to the names of its variables. -/
theorem rename_ordinal_of_variantKey {p q : Pattern} (h : p.variantKey = q.variantKey) :
    p.rename (ordinal p.vars) = q.rename (ordinal q.vars) := by
  rw [variantKey_eq_toText, variantKey_eq_toText] at h
  exact eq_of_toText isVariableName_of_mem_rename isVariableName_of_mem_rename h

/-- A ground pattern shares its key with no other pattern. -/
theorem variantKey_inj {p q : Pattern} (hp : p.isGround = true)
    (h : p.variantKey = q.variantKey) : p = q := by
  have heq := rename_ordinal_of_variantKey h
  rw [rename_of_isGround hp] at heq
  have hq : q.isGround = true := by rw [← isGround_rename q, ← heq, hp]
  rw [heq, rename_of_isGround hq]

/-- Patterns that are the same once their variables are renamed, in both without merging any,
differ in the names of their variables only. -/
theorem exists_bijOn_of_rename_eq {f g : String → String} {p q : Pattern}
    (hf : Set.InjOn f {v | v ∈ p.vars}) (hg : Set.InjOn g {v | v ∈ q.vars})
    (h : p.rename f = q.rename g) :
    ∃ e : String → String, Set.BijOn e {v | v ∈ p.vars} {v | v ∈ q.vars} ∧ p.rename e = q := by
  obtain ⟨back, hback⟩ : ∃ back : String → String, ∀ w ∈ q.occurrences, back (g w) = w :=
    ⟨Function.invFunOn g {w | w ∈ q.vars}, fun w hw => hg.leftInvOn_invFunOn (mem_vars.2 hw)⟩
  have hrename : (p.rename fun v => back (f v)) = q := by
    rw [← rename_rename, h, rename_rename, rename_of_fixed hback]
  -- A variable and its counterpart have one name under `f` and `g`, which no other variable has.
  have hname : ∀ v ∈ p.occurrences, g (back (f v)) = f v := by
    have hboth : (p.rename fun v => g (back (f v))) = p.rename f := by
      rw [← rename_rename (fun v => back (f v)) g, hrename, h]
    exact fun v hv => var.inj (eq_of_subst_eq hboth v hv)
  have himage : ∀ w, w ∈ q.vars ↔ ∃ v ∈ p.vars, back (f v) = w := by
    intro w
    simp only [mem_vars]
    rw [← hrename, occurrences_rename, List.mem_map]
  refine ⟨fun v => back (f v), ⟨?mapsTo, ?injOn, ?surjOn⟩, hrename⟩
  case mapsTo => exact fun v hv => (himage _).2 ⟨v, hv, rfl⟩
  case injOn =>
    intro v hv w hw heq
    refine hf hv hw ?_
    rw [← hname v (mem_vars.1 hv), ← hname w (mem_vars.1 hw)]
    exact congrArg g heq
  case surjOn => exact fun w hw => (himage w).1 hw

/-- A renaming that merges no variables keeps the key. -/
theorem variantKey_rename_of_injOn {f : String → String} {p : Pattern}
    (hf : Set.InjOn f {v | v ∈ p.vars}) : (p.rename f).variantKey = p.variantKey := by
  obtain ⟨π, hπ, _⟩ : ∃ π : Equiv.Perm String, (∀ v ∈ p.vars, π v = f v) ∧
      ∀ u, False → π u = u :=
    exists_perm (fun v hv w hw => hf hv hw) (fun _ _ => id) fun _ _ => id
  have hsame : p.rename π = p.rename f := rename_congr fun v hv => hπ v (mem_vars.2 hv)
  rw [← hsame, variantKey_rename π.injective]

/-- Two patterns have one key exactly if some bijection between their variables takes the first to
the second. -/
theorem variantKey_eq_iff {p q : Pattern} :
    p.variantKey = q.variantKey ↔
      ∃ f : String → String,
        Set.BijOn f {v | v ∈ p.vars} {v | v ∈ q.vars} ∧ p.rename f = q := by
  constructor
  · intro h
    exact exists_bijOn_of_rename_eq (ordinal_injOn p.vars) (ordinal_injOn q.vars)
      (rename_ordinal_of_variantKey h)
  · rintro ⟨f, hf, rfl⟩
    exact (variantKey_rename_of_injOn hf.injOn).symm

example : (link (.link .list) [var "$B", link (.link .list) [], var "$A", var "$B"]).variantKey =
    "(List $#0 (List) $#1 $#0)" := by decide +kernel

end Pattern

end Credence
