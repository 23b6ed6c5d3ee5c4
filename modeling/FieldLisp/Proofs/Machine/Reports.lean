import FieldLisp.Proofs.Machine.Correspondence

/-!
# What two runs report

A symbol is bound plainly in one run and recursively in another one. Where the first run reports a value, the second
one reports its counterpart. A closure is written without its environment, so if the value has a written form, the
counterpart has one too:

* `Retold`: a text for one pointer, and a text for another one;
* `Counterpart.retold`: counterparts are written one as the other;
* `Counterpart.renders`: the counterpart of a value that can be written can be written.
-/

namespace FieldLisp

open Store
open Except (bind_eq_ok bind_of_ok)

variable {t t' u : Store} {f : Fork} {role : Role} {p p' : Pointer} {level level' : Pointer → ℕ}

/-- If something is written for a pointer in one store, something is written for another one in another store, with
any bounds that are large enough. -/
structure Retold (t t' : Store) (level level' : Pointer → ℕ) (p p' : Pointer) : Prop where
  within : ∀ {fuel : ℕ} (fuel' : ℕ) {text : String}, 3 * level p + 1 ≤ fuel → 3 * level' p' + 1 ≤ fuel' →
    t.renderWithin fuel p = .ok text → ∃ text', t'.renderWithin fuel' p' = .ok text'
  items : ∀ {fuel : ℕ} (fuel' : ℕ) {texts : List String}, 3 * level p + (if p.tag = .cons then 0 else 2) ≤ fuel →
    3 * level' p' + (if p'.tag = .cons then 0 else 2) ≤ fuel' → 0 < fuel → 0 < fuel' →
    t.renderItems fuel p = .ok texts → ∃ texts', t'.renderItems fuel' p' = .ok texts'

/-- A pointer that is no pair ends a list as it is written alone. -/
theorem Retold.of_within (htag : p'.tag = p.tag) (hlist : p.tag ≠ .cons)
    (h : ∀ {fuel : ℕ} (fuel' : ℕ) {text : String}, 3 * level p + 1 ≤ fuel → 3 * level' p' + 1 ≤ fuel' →
      t.renderWithin fuel p = .ok text → ∃ text', t'.renderWithin fuel' p' = .ok text') :
    Retold t t' level level' p p' := by
  refine ⟨h, fun {fuel} fuel' {texts} hfuel hfuel' hpositive hpositive' hitems => ?_⟩
  obtain ⟨fuel, rfl⟩ := Nat.exists_eq_add_one_of_ne_zero hpositive.ne'
  obtain ⟨fuel', rfl⟩ := Nat.exists_eq_add_one_of_ne_zero hpositive'.ne'
  rw [if_neg hlist] at hfuel
  rw [if_neg (htag ▸ hlist)] at hfuel'
  unfold renderItems at hitems ⊢
  rw [htag]
  have hend (hitems : (do let tail ← t.renderWithin fuel p; .ok [".", tail]) = Except.ok texts) :
      ∃ texts', (do let tail ← t'.renderWithin fuel' p'; .ok [".", tail]) = Except.ok texts' := by
    obtain ⟨tail, htail, -⟩ := bind_eq_ok.1 hitems
    obtain ⟨tail', htail'⟩ := h fuel' (by omega) (by omega) htail
    exact ⟨_, bind_of_ok htail' _⟩
  cases hp : p.tag <;> rw [hp] at hitems <;> dsimp only at hitems ⊢
  case cons => exact absurd hp hlist
  case nil => exact ⟨[], rfl⟩
  all_goals exact hend hitems

/-- A list is written as its items are. -/
theorem Retold.of_items (htag : p.tag = .cons) (htag' : p'.tag = .cons) (hpositive : 0 < level p)
    (hpositive' : 0 < level' p')
    (h : ∀ {fuel : ℕ} (fuel' : ℕ) {texts : List String}, 3 * level p ≤ fuel → 3 * level' p' ≤ fuel' →
      t.renderItems fuel p = .ok texts → ∃ texts', t'.renderItems fuel' p' = .ok texts') :
    Retold t t' level level' p p' := by
  refine ⟨fun {fuel} fuel' {text} hfuel hfuel' hwithin => ?_, fun {fuel} fuel' {texts} hfuel hfuel' _ _ hitems => ?_⟩
  · obtain ⟨fuel, rfl⟩ := Nat.exists_eq_add_one_of_ne_zero (by omega : fuel ≠ 0)
    obtain ⟨fuel', rfl⟩ := Nat.exists_eq_add_one_of_ne_zero (by omega : fuel' ≠ 0)
    unfold renderWithin at hwithin ⊢
    rw [htag] at hwithin
    rw [htag']
    obtain ⟨texts, htexts, -⟩ := bind_eq_ok.1 hwithin
    obtain ⟨texts', htexts'⟩ := h fuel' (by omega) (by omega) htexts
    exact ⟨_, bind_of_ok htexts' _⟩
  · exact h fuel' (by omega) (by omega) hitems

section
variable (htwins : t.Twins t' level level')
include htwins

theorem Retold.refl (hp : t.Holds p) (hp' : t'.Holds p) : Retold t t' level level' p p := by
  refine ⟨fun {fuel} fuel' {text} hfuel hfuel' h => ?_,
    fun {fuel} fuel' {texts} hfuel hfuel' hpositive hpositive' h => ?_⟩
  · exact ⟨text, by rw [← (htwins.renderWithin_eq fuel).1 fuel' p hp hp' hfuel hfuel', h]⟩
  · exact ⟨texts, by
      rw [← (htwins.renderWithin_eq fuel).2.1 fuel' p hp hp' hfuel hfuel' hpositive hpositive', h]⟩

variable (ht : t.Extends u) (ht' : t'.Extends u)
include ht ht'

/-- A function is written as its parameter and its body are. -/
theorem Retold.function (htag : p.tag = .function) (htag' : p'.tag = .function) (hparameter : u.part p' 0 = u.part p 0)
    (hbody : u.part p' 1 = u.part p 1) (hp : t.Holds p) (hp' : t'.Holds p') : Retold t t' level level' p p' := by
  have harity : p.tag.arity? = some 3 := by rw [htag]; rfl
  have harity' : p'.tag.arity? = some 3 := by rw [htag']; rfl
  obtain ⟨cs, hfetch, hcs, hlength, hheld⟩ := Store.exists_fetch htwins.sound harity hp
  obtain ⟨cs', hfetch', hcs', hlength', hheld'⟩ := Store.exists_fetch htwins.sound' harity' hp'
  have hbelow := htwins.leveled.below hcs
  have hbelow' := htwins.leveled'.below hcs'
  obtain ⟨parameter, body, env, rfl⟩ := List.length_eq_three.1 hlength
  obtain ⟨parameter', body', env', rfl⟩ := List.length_eq_three.1 hlength'
  rw [part_of_node (ht.node hcs), part_of_node (ht'.node hcs')] at hparameter hbody
  obtain rfl : parameter' = parameter := hparameter
  obtain rfl : body' = body := hbody
  apply of_within (htag'.trans htag.symm) (by rw [htag]; decide)
  intro fuel fuel' text hfuel hfuel' hwithin
  obtain ⟨fuel, rfl⟩ := Nat.exists_eq_add_one_of_ne_zero (by omega : fuel ≠ 0)
  obtain ⟨fuel', rfl⟩ := Nat.exists_eq_add_one_of_ne_zero (by omega : fuel' ≠ 0)
  have hsame (c : Pointer) (hc : c = parameter' ∨ c = body') : t.renderWithin fuel c = t'.renderWithin fuel' c := by
    have hmem (env : Pointer) : c ∈ [parameter', body', env] := by rcases hc with rfl | rfl <;> simp
    have hlow := hbelow c (hmem _)
    have hlow' := hbelow' c (hmem _)
    exact (htwins.renderWithin_eq fuel).1 fuel' c (hheld c (hmem _)) (hheld' c (hmem _)) (by omega) (by omega)
  unfold renderWithin at hwithin ⊢
  rw [htag] at hwithin
  rw [htag']
  dsimp only at hwithin ⊢
  rw [bind_of_ok hfetch] at hwithin
  rw [bind_of_ok hfetch']
  dsimp only at hwithin ⊢
  rw [hsame _ (.inl rfl), hsame _ (.inr rfl)] at hwithin
  exact ⟨text, hwithin⟩

variable {tag : Tag} {a b a' b' : Pointer}

/-- Nodes of two children are written as the children are. -/
theorem Retold.pair (harity : tag.arity? = some 2) (hnode : u.HasNode tag [a, b]) (hnode' : u.HasNode tag [a', b'])
    (hp : t.Holds (nodePointer tag [a, b])) (hp' : t'.Holds (nodePointer tag [a', b']))
    (hfirst : t.Holds a → t'.Holds a' → Retold t t' level level' a a')
    (hsecond : t.Holds b → t'.Holds b' → Retold t t' level level' b b') :
    Retold t t' level level' (nodePointer tag [a, b]) (nodePointer tag [a', b']) := by
  obtain ⟨cs, hfetch, hcs, -, hheld⟩ := Store.exists_fetch htwins.sound harity hp
  obtain ⟨cs', hfetch', hcs', -, hheld'⟩ := Store.exists_fetch htwins.sound' harity hp'
  cases (ht.node hcs).symm.trans hnode
  cases (ht'.node hcs').symm.trans hnode'
  have hbelow := htwins.leveled.below hcs
  have hbelow' := htwins.leveled'.below hcs'
  simp only [List.forall_mem_cons, List.not_mem_nil, false_imp_iff, implies_true, and_true] at hheld hheld'
  simp only [List.forall_mem_cons, List.not_mem_nil, false_imp_iff, implies_true, and_true] at hbelow hbelow'
  have hfirst := hfirst hheld.1 hheld'.1
  have hsecond := hsecond hheld.2 hheld'.2
  have htags : (nodePointer tag [a', b']).tag = (nodePointer tag [a, b]).tag := rfl
  cases tag with
  | cons =>
    apply of_items rfl rfl (by omega) (by omega)
    intro fuel fuel' texts hfuel hfuel' hitems
    obtain ⟨fuel, rfl⟩ := Nat.exists_eq_add_one_of_ne_zero (by omega : fuel ≠ 0)
    obtain ⟨fuel', rfl⟩ := Nat.exists_eq_add_one_of_ne_zero (by omega : fuel' ≠ 0)
    have htag (cs : List Pointer) : (nodePointer .cons cs).tag = .cons := rfl
    unfold renderItems at hitems ⊢
    rw [htag] at hitems ⊢
    dsimp only at hitems ⊢
    rw [bind_of_ok hfetch] at hitems
    rw [bind_of_ok hfetch']
    dsimp only at hitems ⊢
    obtain ⟨item, hitem, hrest⟩ := bind_eq_ok.1 hitems
    obtain ⟨others, hothers, -⟩ := bind_eq_ok.1 hrest
    obtain ⟨item', hitem'⟩ := hfirst.within fuel' (by omega) (by omega) hitem
    obtain ⟨others', hothers'⟩ := hsecond.items fuel' (by split <;> omega) (by split <;> omega) (by omega)
      (by omega) hothers
    rw [bind_of_ok hitem', bind_of_ok hothers']
    exact ⟨_, rfl⟩
  | thunk =>
    apply of_within htags (show Tag.thunk ≠ .cons by decide)
    intro fuel fuel' text hfuel hfuel' hwithin
    obtain ⟨fuel, rfl⟩ := Nat.exists_eq_add_one_of_ne_zero (by omega : fuel ≠ 0)
    obtain ⟨fuel', rfl⟩ := Nat.exists_eq_add_one_of_ne_zero (by omega : fuel' ≠ 0)
    have htag (cs : List Pointer) : (nodePointer .thunk cs).tag = .thunk := rfl
    unfold renderWithin at hwithin ⊢
    rw [htag] at hwithin ⊢
    dsimp only at hwithin ⊢
    rw [bind_of_ok hfetch] at hwithin
    rw [bind_of_ok hfetch']
    obtain ⟨value, hvalue, -⟩ := bind_eq_ok.1 hwithin
    obtain ⟨value', hvalue'⟩ := hfirst.within fuel' (by omega) (by omega) hvalue
    exact ⟨_, bind_of_ok hvalue' _⟩
  | commitment =>
    apply of_within htags (show Tag.commitment ≠ .cons by decide)
    intro fuel fuel' text hfuel hfuel' hwithin
    obtain ⟨fuel', rfl⟩ := Nat.exists_eq_add_one_of_ne_zero (by omega : fuel' ≠ 0)
    have htag (cs : List Pointer) : (nodePointer .commitment cs).tag = .commitment := rfl
    obtain ⟨value, hvalue⟩ := exists_payload hp'.canonical
    unfold renderWithin
    rw [htag]
    exact ⟨_, bind_of_ok hvalue _⟩
  | _ => cases harity

/-- The counterpart of a value is written if the value is. -/
theorem Counterpart.retold (h : Counterpart u f role p p') (hrole : role = .value) (hp : t.Holds p)
    (hp' : t'.Holds p') : Retold t t' level level' p p' := by
  induction h with
  | same => exact .refl htwins hp hp'
  | forked | ahead | bound => cases hrole
  | closure htag htag' hparameter hbody => exact .function htwins ht ht' htag htag' hparameter hbody hp hp'
  | pair harity hnode hnode' _ _ hfirst hsecond =>
    exact .pair htwins ht ht' harity hnode hnode' hp hp' (hfirst rfl) (hsecond rfl)

end

/-- The counterpart of a value that can be written can be written. -/
theorem Counterpart.renders {known : Set (List Int)} {v v' : Pointer} {text : String} (h : Counterpart u f .value v v')
    (hinjective : Set.InjOn Sponge.hash known) (hs : Reachable t) (hs' : Reachable t') (hknown : t.content ⊆ known)
    (hknown' : t'.content ⊆ known) (ht : t.Extends u) (ht' : t'.Extends u) (hv : t.Holds v) (hv' : t'.Holds v')
    (hrender : t.render v = .ok text) : ∃ text', t'.render v' = .ok text' := by
  obtain ⟨level, level', htwins⟩ := exists_twins hinjective hs hs' hknown hknown'
  have hbounded := htwins.leveled.bounded v
  have hbounded' := htwins.leveled'.bounded v'
  exact (h.retold htwins ht ht' rfl hv hv').within _ (by omega) (by omega) hrender

end FieldLisp
