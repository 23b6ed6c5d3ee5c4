import FieldLisp.Proofs.Circuit.Sponge

/-!
# What is laid out does not depend on values

Two runs of one operation, on circuits of the same layout and on combinations of the same terms, lay
out the same. The one place where a value decides is a constant factor, and constants of the same
terms have the same value.

* `Combination.Alike`: combinations of the same terms, each faithful in its own circuit;
* `Circuit.Uniform`: two runs that lay out the same, and return what is alike;
* `Gadget.uniform_less`, `Gadget.uniform_divRem`, `Gadget.uniform_sponge`: the gadgets.
-/

namespace FieldLisp

open FieldLisp.Field (Element)
open EStateM (bind_eq_ok pure_eq_ok)

/-! ## Combinations -/

/-- Combinations of the same terms, each worth what it carries under a valuation of its own. -/
structure Combination.Alike (ω₁ ω₂ : Valuation) (x y : Combination) : Prop where
  terms : x.terms = y.terms
  left : x.Faithful ω₁
  right : y.Faithful ω₂

namespace Combination.Alike
variable {ω₁ ω₂ : Valuation} {x y z w : Combination}

theorem isConstant_eq (h : Alike ω₁ ω₂ x y) : x.isConstant = y.isConstant := by
  rw [isConstant, isConstant, h.terms]

/-- Constants of the same terms have the same value. -/
theorem value_eq (h : Alike ω₁ ω₂ x y) (hx : x.isConstant) : x.value = y.value := by
  refine h.left.value_eq h.right.canonical ?_
  rw [under_eq_of_isConstant hx ω₁ ω₂, under, h.terms]
  exact h.right.under_eq

theorem add (h : Alike ω₁ ω₂ x y) (h' : Alike ω₁ ω₂ z w) : Alike ω₁ ω₂ (x + z) (y + w) where
  terms := congrArg₂ mergeTerms h.terms h'.terms
  left := h.left.add h'.left
  right := h.right.add h'.right

theorem scale (h : Alike ω₁ ω₂ x y) (n : Int) : Alike ω₁ ω₂ (x * n) (y * n) where
  terms := by
    change (x.scale n).terms = (y.scale n).terms
    unfold Combination.scale
    dsimp only
    split
    · rfl
    · rw [h.terms]
  left := h.left.scale n
  right := h.right.scale n

theorem sub (h : Alike ω₁ ω₂ x y) (h' : Alike ω₁ ω₂ z w) : Alike ω₁ ω₂ (x - z) (y - w) :=
  h.add (h'.scale (-1))

theorem constant (n : Int) : Alike ω₁ ω₂ (.constant n) (.constant n) := ⟨rfl, .constant n, .constant n⟩

theorem one : Alike ω₁ ω₂ 1 1 := constant 1

theorem zero : Alike ω₁ ω₂ 0 0 := ⟨rfl, .zero, .zero⟩

theorem linear : Linear (Alike ω₁ ω₂) := ⟨zero, add, scale⟩

theorem sum {xs ys : List Combination} (h : List.Forall₂ (Alike ω₁ ω₂) xs ys) :
    Alike ω₁ ω₂ (xs.foldl (· + ·) 0) (ys.foldl (· + ·) 0) := by
  have hstep {x y : Combination} (hxy : Alike ω₁ ω₂ x y) :
      Alike ω₁ ω₂ (xs.foldl (· + ·) x) (ys.foldl (· + ·) y) := by
    induction h generalizing x y with
    | nil => exact hxy
    | cons hab _ ih => exact ih (hxy.add hab)
  exact hstep zero

end Combination.Alike

/-! ## Operations that grow -/

namespace Circuit

/-- That an operation grows, found by its form. -/
class Growing (x : CircuitM α) : Prop where
  grows : Grows x

section
variable {ι : Type*} {α β : Type}

instance (a : α) : Growing (pure a) := ⟨.pure a⟩

instance (x : CircuitM α) (f : α → CircuitM β) [hx : Growing x] [hf : ∀ a, Growing (f a)] :
    Growing (x >>= f) := ⟨hx.grows.bind fun a => (hf a).grows⟩

instance (f : ι → CircuitM β) (xs : List ι) [hf : ∀ a, Growing (f a)] : Growing (xs.mapM f) :=
  ⟨.mapM (fun a => (hf a).grows) xs⟩

instance (f : ι → CircuitM Unit) (xs : List ι) [hf : ∀ a, Growing (f a)] : Growing (xs.forM f) :=
  ⟨.forM (fun a => (hf a).grows) xs⟩

instance (f : β → ι → CircuitM β) (b : β) (xs : List ι) [hf : ∀ b a, Growing (f b a)] :
    Growing (xs.foldlM f b) := ⟨.foldlM (fun b a => (hf b a).grows) b xs⟩

instance {n : ℕ} (f : α → CircuitM β) (xs : Vector α n) [hf : ∀ a, Growing (f a)] :
    Growing (xs.mapM f) := ⟨.vectorMapM (fun a => (hf a).grows) xs⟩

instance (v : Int) : Growing (alloc v) := ⟨grows_alloc v⟩

instance (a b c : Combination) : Growing (enforce a b c) := ⟨grows_enforce a b c⟩

instance (a b : Combination) : Growing (mul a b) := ⟨grows_mul a b⟩

end

end Circuit

namespace Gadget

open Circuit (Growing)

instance (b : Combination) : Growing (boolean b) := ⟨Circuit.grows_enforce b (1 - b) 0⟩

instance (value : Bool) : Growing (allocBit value) := ⟨grows_allocBit value⟩

instance (x : Combination) (n : ℕ) : Growing (bits x n) := ⟨grows_bits x n⟩

instance (x : Combination) : Growing (isNegative x) := ⟨grows_isNegative x⟩

instance (c x y : Combination) : Growing (impliesEqual c x y) := ⟨grows_impliesEqual c x y⟩

instance (flag x y : Combination) : Growing (select flag x y) := ⟨grows_select flag x y⟩

instance (index : Int) (count : ℕ) : Growing (oneHot index count) := ⟨grows_oneHot index count⟩

instance (x : Combination) : Growing (sbox x) := ⟨grows_sbox x⟩

instance (input : Permutation.Lanes Combination) : Growing (permute input) := ⟨grows_permute input⟩

end Gadget

/-! ## Two runs -/

namespace Circuit

/-- Circuits that differ in their values only. -/
structure SameLayout (s t : Circuit) : Prop where
  limit : s.limit = none
  limit' : t.limit = none
  size : s.assignment.size = t.assignment.size
  publicCount : s.publicCount = t.publicCount
  constraints : s.constraints = t.constraints
  labels : s.labels = t.labels
  scopes : s.scopes = t.scopes
  label : s.label = t.label

namespace SameLayout
variable {s t : Circuit}

theorem enter (h : SameLayout s t) (name : String) : SameLayout (s.enter name) (t.enter name) :=
  ⟨h.limit, h.limit', h.size, h.publicCount, h.constraints, h.labels, by simp [Circuit.enter, h.scopes],
    by simp [Circuit.enter, h.scopes]⟩

theorem leave (h : SameLayout s t) : SameLayout s.leave t.leave :=
  ⟨h.limit, h.limit', h.size, h.publicCount, h.constraints, h.labels, by simp [Circuit.leave, h.scopes],
    by simp [Circuit.leave, h.scopes]⟩

end SameLayout

/-- Two runs lay out the same. What they return is related where each valuation is the one that its
circuit ends up with. -/
def Uniform (ω₁ ω₂ : Valuation) (rel : α → β → Prop) (x : CircuitM α) (y : CircuitM β) : Prop :=
  ∀ s t a b s' t', SameLayout s t → x s = .ok a s' → y t = .ok b t' → s'.Fits ω₁ → t'.Fits ω₂ →
    rel a b ∧ SameLayout s' t'

namespace Uniform
variable {ω₁ ω₂ : Valuation}

theorem pure {rel : α → β → Prop} {a : α} {b : β} (h : rel a b) :
    Uniform ω₁ ω₂ rel (Pure.pure a) (Pure.pure b) := by
  intro s t a' b' s' t' hst hx hy _ _
  obtain ⟨rfl, rfl⟩ := pure_eq_ok.1 hx
  obtain ⟨rfl, rfl⟩ := pure_eq_ok.1 hy
  exact ⟨h, hst⟩

theorem bind {rel : α → β → Prop} {rel' : γ → δ → Prop} {x : CircuitM α} {y : CircuitM β}
    {f : α → CircuitM γ} {g : β → CircuitM δ} [gx : Growing x] [gy : Growing y]
    [gf : ∀ a, Growing (f a)] [gg : ∀ b, Growing (g b)] (hxy : Uniform ω₁ ω₂ rel x y)
    (hfg : ∀ a b, rel a b → Uniform ω₁ ω₂ rel' (f a) (g b)) :
    Uniform ω₁ ω₂ rel' (x >>= f) (y >>= g) := by
  intro s t c d s' t' hst hx hy hfits hfits'
  obtain ⟨a, s₁, hxs, hf⟩ := bind_eq_ok.1 hx
  obtain ⟨b, t₁, hyt, hg⟩ := bind_eq_ok.1 hy
  have hext := (gf a).grows.extends_of_ok (gx.grows.limit_of_ok hst.limit hxs) hf
  have hext' := (gg b).grows.extends_of_ok (gy.grows.limit_of_ok hst.limit' hyt) hg
  obtain ⟨hab, hst₁⟩ := hxy _ _ _ _ _ _ hst hxs hyt (hext.fits hfits) (hext'.fits hfits')
  exact hfg a b hab _ _ _ _ _ _ hst₁ hf hg hfits hfits'

theorem mono {rel rel' : α → β → Prop} {x : CircuitM α} {y : CircuitM β}
    (hxy : Uniform ω₁ ω₂ rel x y) (h : ∀ a b, rel a b → rel' a b) : Uniform ω₁ ω₂ rel' x y :=
  fun _ _ _ _ _ _ hst hx hy hfits hfits' =>
    (hxy _ _ _ _ _ _ hst hx hy hfits hfits').imp_left (h _ _)

theorem mapM {rel : α → β → Prop} {rel' : γ → δ → Prop} {f : α → CircuitM γ} {g : β → CircuitM δ}
    [∀ a, Growing (f a)] [∀ b, Growing (g b)]
    (hfg : ∀ a b, rel a b → Uniform ω₁ ω₂ rel' (f a) (g b)) {xs : List α} {ys : List β}
    (h : List.Forall₂ rel xs ys) :
    Uniform ω₁ ω₂ (List.Forall₂ rel') (xs.mapM f) (ys.mapM g) := by
  induction h with
  | nil => exact .pure .nil
  | @cons a b xs ys hab _ ih =>
    rw [List.mapM_cons, List.mapM_cons]
    refine (hfg a b hab).bind fun c d hcd => ?_
    exact ih.bind fun cs ds hcds => .pure (.cons hcd hcds)

theorem forM {rel : α → β → Prop} {f : α → CircuitM Unit} {g : β → CircuitM Unit}
    [∀ a, Growing (f a)] [∀ b, Growing (g b)]
    (hfg : ∀ a b, rel a b → Uniform ω₁ ω₂ (fun _ _ => True) (f a) (g b)) {xs : List α} {ys : List β}
    (h : List.Forall₂ rel xs ys) : Uniform ω₁ ω₂ (fun _ _ => True) (xs.forM f) (ys.forM g) := by
  induction h with
  | nil => exact .pure trivial
  | @cons a b xs ys hab _ ih => exact (hfg a b hab).bind fun _ _ _ => ih

theorem foldlM {rel : γ → δ → Prop} {rel' : α → β → Prop} {f : γ → α → CircuitM γ}
    {g : δ → β → CircuitM δ} [∀ c a, Growing (f c a)] [∀ d b, Growing (g d b)]
    (hfg : ∀ {c d a b}, rel c d → rel' a b → Uniform ω₁ ω₂ rel (f c a) (g d b)) {xs : List α}
    {ys : List β} (h : List.Forall₂ rel' xs ys) {c : γ} {d : δ} (hcd : rel c d) :
    Uniform ω₁ ω₂ rel (xs.foldlM f c) (ys.foldlM g d) := by
  induction h generalizing c d with
  | nil => exact .pure hcd
  | @cons a b xs ys hab _ ih => exact (hfg hcd hab).bind fun _ _ hcd' => ih hcd'

theorem vectorMapM {α β γ δ : Type} {n : ℕ} {rel : α → β → Prop} {rel' : γ → δ → Prop}
    {f : α → CircuitM γ} {g : β → CircuitM δ} [∀ a, Growing (f a)] [∀ b, Growing (g b)]
    (hfg : ∀ a b, rel a b → Uniform ω₁ ω₂ rel' (f a) (g b)) {xs : Vector α n} {ys : Vector β n}
    (h : Permutation.Related rel xs ys) :
    Uniform ω₁ ω₂ (Permutation.Related rel') (xs.mapM f) (ys.mapM g) := by
  intro s t a b s' t' hst hx hy hfits hfits'
  have hlist : List.Forall₂ rel xs.toList ys.toList :=
    List.forall₂_iff_get.2 ⟨by simp, fun i h₁ _ => by simpa using h i (by simpa using h₁)⟩
  obtain ⟨hab, hst'⟩ := mapM hfg hlist s t _ _ s' t' hst (EStateM.toList_mapM_eq_ok hx)
    (EStateM.toList_mapM_eq_ok hy) hfits hfits'
  exact ⟨.ofForall₂ hab, hst'⟩

theorem within {rel : α → β → Prop} {x : CircuitM α} {y : CircuitM β}
    (hxy : Uniform ω₁ ω₂ rel x y) (name : String) :
    Uniform ω₁ ω₂ rel (Circuit.within name x) (Circuit.within name y) := by
  intro s t a b s' t' hst hx hy hfits hfits'
  obtain ⟨u, hrun, rfl⟩ := within_eq_ok.1 hx
  obtain ⟨v, hrun', rfl⟩ := within_eq_ok.1 hy
  obtain ⟨hab, huv⟩ := hxy _ _ _ _ _ _ (hst.enter name) hrun hrun' hfits hfits'
  exact ⟨hab, huv.leave⟩

end Uniform

theorem uniform_alloc {ω₁ ω₂ : Valuation} (v w : Int) :
    Uniform ω₁ ω₂ (Combination.Alike ω₁ ω₂) (alloc v) (alloc w) := by
  intro s t a b s' t' hst hx hy hfits hfits'
  cases hx
  cases hy
  refine ⟨⟨by simp [Combination.ofVariable, hst.size], ?_, ?_⟩, ⟨hst.limit, hst.limit', ?_,
    hst.publicCount, hst.constraints, hst.labels, hst.scopes, hst.label⟩⟩
  · exact .ofVariable (Field.reduce_canonical v) (hfits _ _ (by simp))
  · exact .ofVariable (Field.reduce_canonical w) (hfits' _ _ (by simp))
  · simp [hst.size]

theorem uniform_enforce {ω₁ ω₂ : Valuation} {a b c a' b' c' : Combination}
    (ha : a.Alike ω₁ ω₂ a') (hb : b.Alike ω₁ ω₂ b') (hc : c.Alike ω₁ ω₂ c') :
    Uniform ω₁ ω₂ (fun _ _ => True) (enforce a b c) (enforce a' b' c') := by
  intro s t _ _ s' t' hst hx hy _ _
  rw [enforce_eq hst.limit] at hx
  rw [enforce_eq hst.limit'] at hy
  cases hx
  cases hy
  refine ⟨trivial, ⟨hst.limit, hst.limit', hst.size, hst.publicCount, ?_, ?_, hst.scopes, hst.label⟩⟩
  · rw [hst.constraints, ha.terms, hb.terms, hc.terms]
  · rw [hst.labels, hst.label]

theorem uniform_mul {ω₁ ω₂ : Valuation} {a b a' b' : Combination} (ha : a.Alike ω₁ ω₂ a')
    (hb : b.Alike ω₁ ω₂ b') : Uniform ω₁ ω₂ (Combination.Alike ω₁ ω₂) (mul a b) (mul a' b') := by
  unfold mul
  rw [← ha.isConstant_eq, ← hb.isConstant_eq]
  split
  · rename_i hconst
    rw [← ha.value_eq hconst]
    exact .pure (hb.scale _)
  · split
    · rename_i hconst
      rw [← hb.value_eq hconst]
      exact .pure (ha.scale _)
    · refine (uniform_alloc _ _).bind fun c c' hc => ?_
      exact (uniform_enforce ha hb hc).bind fun _ _ _ => .pure hc

end Circuit

/-! ## Gadgets -/

namespace Gadget

open Circuit
open Combination (Alike)

variable {ω₁ ω₂ : Valuation} {x y z w x' y' : Combination}

theorem uniform_allocBit (v w : Bool) : Uniform ω₁ ω₂ (Alike ω₁ ω₂) (allocBit v) (allocBit w) := by
  refine (uniform_alloc _ _).bind fun c d hcd => ?_
  exact (uniform_enforce hcd (Alike.one.sub hcd) .zero).bind fun _ _ _ => .pure hcd

/-- Both results of a zero test are alike. -/
theorem uniform_isZero (h : Alike ω₁ ω₂ x y) :
    Uniform ω₁ ω₂ (fun p q => Alike ω₁ ω₂ p.1 q.1 ∧ Alike ω₁ ω₂ p.2 q.2) (isZero x) (isZero y) := by
  unfold isZero
  dsimp only
  rw [← h.isConstant_eq]
  split
  · rename_i hconst
    rw [h.value_eq hconst]
    exact .pure ⟨.constant _, .constant _⟩
  · refine (uniform_alloc _ _).bind fun inverse inverse' hinverse => ?_
    refine (uniform_alloc _ _).bind fun zero zero' hzero => ?_
    refine (uniform_enforce h hinverse (Alike.one.sub hzero)).bind fun _ _ _ => ?_
    exact (uniform_enforce h hzero .zero).bind fun _ _ _ => .pure ⟨hzero, hinverse⟩

theorem uniform_impliesEqual (hx : Alike ω₁ ω₂ x x') (hy : Alike ω₁ ω₂ y y') (hz : Alike ω₁ ω₂ z w) :
    Uniform ω₁ ω₂ (fun _ _ => True) (impliesEqual x y z) (impliesEqual x' y' w) :=
  uniform_enforce hx (hy.sub hz) .zero

theorem forall₂_zip {α β γ δ : Type} {rel : α → β → Prop} {rel' : γ → δ → Prop} {as : List α}
    {bs : List β} {cs : List γ} {ds : List δ} (h : List.Forall₂ rel as bs)
    (h' : List.Forall₂ rel' cs ds) :
    List.Forall₂ (fun p q => rel p.1 q.1 ∧ rel' p.2 q.2) (as.zip cs) (bs.zip ds) := by
  induction h generalizing cs ds with
  | nil => exact .nil
  | cons hab _ ih =>
    cases h' with
    | nil => exact .nil
    | cons hcd h' => exact .cons ⟨hab, hcd⟩ (ih h')

theorem uniform_bindAll (hx : Alike ω₁ ω₂ x y) {as bs cs ds : List Combination}
    (h : List.Forall₂ (Alike ω₁ ω₂) as bs) (h' : List.Forall₂ (Alike ω₁ ω₂) cs ds) :
    Uniform ω₁ ω₂ (fun _ _ => True) (bindAll x as cs) (bindAll y bs ds) :=
  .forM (fun _ _ hpq => uniform_impliesEqual hx hpq.1 hpq.2) (forall₂_zip h h')

theorem uniform_select (hflag : Alike ω₁ ω₂ z w) (hx : Alike ω₁ ω₂ x x') (hy : Alike ω₁ ω₂ y y') :
    Uniform ω₁ ω₂ (Alike ω₁ ω₂) (select z x y) (select w x' y') := by
  have hdifference := hx.sub hy
  unfold select
  dsimp only
  rw [← hdifference.isConstant_eq]
  split
  · rename_i hconst
    rw [hdifference.value_eq hconst]
    exact .pure (hy.add (hflag.scale _))
  · refine (uniform_alloc _ _).bind fun c d hcd => ?_
    exact (uniform_enforce hflag hdifference (hcd.sub hy)).bind fun _ _ _ => .pure hcd

theorem alike_weighted {xs ys : List Combination} (h : List.Forall₂ (Alike ω₁ ω₂) xs ys) :
    Alike ω₁ ω₂ (weighted xs) (weighted ys) := by
  refine .sum ?_
  rw [List.forall₂_map_left_iff, List.forall₂_map_right_iff]
  refine List.forall₂_iff_get.2 ⟨by simp [h.length_eq], fun i h₁ h₂ => ?_⟩
  simp only [List.get_eq_getElem, List.getElem_zipIdx, Nat.zero_add]
  exact (h.get (by simpa using h₁) (by simpa using h₂)).scale _

theorem forall₂_refl {α : Type} (xs : List α) : List.Forall₂ Eq xs xs :=
  List.forall₂_eq_eq_eq ▸ rfl

theorem uniform_bits (h : Alike ω₁ ω₂ x y) (n : ℕ) :
    Uniform ω₁ ω₂ (List.Forall₂ (Alike ω₁ ω₂)) (bits x n) (bits y n) := by
  refine (Uniform.mapM
    (fun i j _ => uniform_allocBit _ _) (forall₂_refl (List.range n))).bind fun digits digits' hd => ?_
  exact (uniform_enforce (alike_weighted hd) .one h).bind fun _ _ _ => .pure hd

theorem uniform_isNegative (h : Alike ω₁ ω₂ x y) :
    Uniform ω₁ ω₂ (Alike ω₁ ω₂) (isNegative x) (isNegative y) := by
  refine (uniform_allocBit _ _).bind fun n m hn => ?_
  refine (uniform_mul hn h).bind fun nx my hnx => ?_
  have hr := (((Alike.constant Field.half).sub h).add (hnx.scale 2)).sub
    (hn.scale (2 * Field.half + 1))
  refine (uniform_bits hr Field.signedBits).bind fun _ _ _ => ?_
  exact (uniform_bits ((Alike.constant Field.half).sub hr) Field.signedBits).bind
    fun _ _ _ => .pure hn

theorem uniform_less (hx : Alike ω₁ ω₂ x x') (hy : Alike ω₁ ω₂ y y') :
    Uniform ω₁ ω₂ (Alike ω₁ ω₂) (less x y) (less x' y') := by
  refine (uniform_isNegative hx).bind fun a a' ha => ?_
  refine (uniform_isNegative hy).bind fun b b' hb => ?_
  refine (uniform_isNegative (hx.sub hy)).bind fun d d' hd => ?_
  refine (uniform_mul ha hb).bind fun p p' hp => ?_
  exact uniform_select (((Alike.one.sub ha).sub hb).add (hp.scale 2)) hd ha

theorem uniform_divRem (hz : Alike ω₁ ω₂ z w) (hx : Alike ω₁ ω₂ x x') (hy : Alike ω₁ ω₂ y y') (n : ℕ) :
    Uniform ω₁ ω₂ (fun p q => Alike ω₁ ω₂ p.1 q.1 ∧ Alike ω₁ ω₂ p.2 q.2) (divRem z x y n)
      (divRem w x' y' n) := by
  refine (uniform_alloc _ _).bind fun q q' hq => ?_
  refine (uniform_alloc _ _).bind fun r r' hr => ?_
  refine (uniform_bits hq n).bind fun _ _ _ => ?_
  refine (uniform_bits hr n).bind fun _ _ _ => ?_
  refine (uniform_mul hz ((hy.sub hr).sub .one)).bind fun short short' hshort => ?_
  refine (uniform_bits hshort n).bind fun _ _ _ => ?_
  refine (uniform_mul hy hq).bind fun p p' hp => ?_
  exact (uniform_impliesEqual hz (hp.add hr) hx).bind fun _ _ _ => .pure ⟨hq, hr⟩

theorem uniform_oneHot (index index' : Int) (count : ℕ) :
    Uniform ω₁ ω₂ (List.Forall₂ (Alike ω₁ ω₂)) (oneHot index count) (oneHot index' count) := by
  refine (Uniform.mapM
    (fun i j _ => uniform_allocBit _ _) (forall₂_refl (List.range count))).bind fun flags flags' hf => ?_
  exact (uniform_enforce (.sum hf) .one .one).bind fun _ _ _ => .pure hf

/-! ## The sponge -/

open Permutation (Lanes Related)

theorem uniform_sbox (h : Alike ω₁ ω₂ x y) : Uniform ω₁ ω₂ (Alike ω₁ ω₂) (sbox x) (sbox y) := by
  refine (uniform_alloc _ _).bind fun x1 y1 h1 => ?_
  refine (uniform_enforce h .one h1).bind fun _ _ _ => ?_
  refine (uniform_mul h1 h1).bind fun x2 y2 h2 => ?_
  refine (uniform_mul h2 h1).bind fun x3 y3 h3 => ?_
  exact (uniform_mul h2 h2).bind fun x4 y4 h4 => uniform_mul h3 h4

theorem uniform_fullRound {xs ys : Lanes Combination} (h : Related (Alike ω₁ ω₂) xs ys) (round : ℕ) :
    Uniform ω₁ ω₂ (Related (Alike ω₁ ω₂)) (fullRound xs round) (fullRound ys round) := by
  set inputs : Lanes Combination := Vector.ofFn fun lane : Fin 16 =>
    xs.get lane + .constant (Permutation.fullConstant round lane) with hinputs
  set inputs' : Lanes Combination := Vector.ofFn fun lane : Fin 16 =>
    ys.get lane + .constant (Permutation.fullConstant round lane) with hinputs'
  have sums : Related (Alike ω₁ ω₂) inputs inputs' := .ofFn fun lane => (h.get lane).add (.constant _)
  have sboxes : Uniform ω₁ ω₂ (Related (Alike ω₁ ω₂)) (inputs.mapM sbox) (inputs'.mapM sbox) :=
    .vectorMapM (fun _ _ h => uniform_sbox h) sums
  exact sboxes.bind fun out out' hout => .pure (Permutation.mixExternal_related Alike.linear hout)

theorem uniform_partialRound {xs ys : Lanes Combination} (h : Related (Alike ω₁ ω₂) xs ys)
    (round : ℕ) :
    Uniform ω₁ ω₂ (Related (Alike ω₁ ω₂)) (partialRound xs round) (partialRound ys round) := by
  refine (uniform_sbox ((h.get 0).add (.constant _))).bind fun x y hxy => .pure ?_
  exact Permutation.mixInternal_related Alike.linear (Permutation.setFirst_related h hxy)

instance (state : Lanes Combination) (round : ℕ) : Growing (fullRound state round) := by
  unfold fullRound
  infer_instance

instance (state : Lanes Combination) (round : ℕ) : Growing (partialRound state round) := by
  unfold partialRound
  infer_instance

theorem uniform_permute {xs ys : Lanes Combination} (h : Related (Alike ω₁ ω₂) xs ys) :
    Uniform ω₁ ω₂ (Related (Alike ω₁ ω₂)) (permute xs) (permute ys) := by
  have rounds {roundOf : Lanes Combination → ℕ → CircuitM (Lanes Combination)}
      [∀ state round, Growing (roundOf state round)]
      (uniform : ∀ {xs ys}, Related (Alike ω₁ ω₂) xs ys → ∀ round,
        Uniform ω₁ ω₂ (Related (Alike ω₁ ω₂)) (roundOf xs round) (roundOf ys round))
      {xs ys : Lanes Combination} (h : Related (Alike ω₁ ω₂) xs ys) (rounds : List ℕ) :
      Uniform ω₁ ω₂ (Related (Alike ω₁ ω₂)) (rounds.foldlM roundOf xs) (rounds.foldlM roundOf ys) :=
    .foldlM (fun hcd hround => hround ▸ uniform hcd _) (forall₂_refl rounds) h
  have start := Permutation.mixExternal_related Alike.linear h
  refine (rounds uniform_fullRound start _).bind fun opening opening' hopening => ?_
  refine (rounds uniform_partialRound hopening _).bind fun middle middle' hmiddle => ?_
  exact rounds uniform_fullRound hmiddle _

instance (capacity : Digest Combination) (block : List Combination) : Growing (absorb capacity block) := by
  unfold absorb
  infer_instance

instance (elements : List Combination) : Growing (sponge elements) := ⟨grows_sponge elements⟩

theorem uniform_sponge {xs ys : List Combination} (h : List.Forall₂ (Alike ω₁ ω₂) xs ys) :
    Uniform ω₁ ω₂ (fun d e => List.Forall₂ (Alike ω₁ ω₂) d.toList e.toList) (sponge xs) (sponge ys) := by
  rw [sponge, sponge, h.length_eq]
  have hblocks := forall₂_blocks Sponge.rate (Sponge.blockCount ys.length) h
  refine .foldlM (fun hcapacity hblock => ?_) hblocks ?_
  · refine (uniform_permute (Permutation.lanes_related Alike.linear hblock hcapacity)).bind
      fun out out' hout => .pure ?_
    exact .cons (hout.get 0) (.cons (hout.get 1) (.cons (hout.get 2) (.cons (hout.get 3) .nil)))
  · rw [Digest.toList_map]
    exact List.forall₂_map_left_iff.2 (List.forall₂_map_right_iff.2
      (List.forall₂_same.2 fun n _ => .constant n))

end Gadget

end FieldLisp
