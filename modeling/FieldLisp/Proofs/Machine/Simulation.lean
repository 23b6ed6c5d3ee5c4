import FieldLisp.Machine.Rules
import FieldLisp.Proofs.Canonical

/-!
# Simulations between models

The rules of the machine are programs over an abstract model, and no rule branches on data. Two
models therefore run every rule in step, whatever relation their operations keep:

* `Simulation`: relations on elements, pointers and runs, with a clause for each operation;
* `Simulation.mapM`, `Simulation.both`, `Simulation.pointerFlags`, `Simulation.choose`: what rules
  are written in keeps the relations, once and for all simulations.
-/

namespace FieldLisp

open StepModel

/-- Relations between two models that all their operations keep. A digest is made of an element and
zeros, and a node has a number of children from zero up: the rules ask for nothing else. -/
structure Simulation (m₁ m₂ : Type → Type) (E₁ E₂ P₁ P₂ : Type) [Monad m₁] [Monad m₂]
    [ElementModel E₁] [ElementModel E₂] [PointerModel P₁] [PointerModel P₂]
    [StepModel m₁ E₁ P₁] [StepModel m₂ E₂ P₂] where
  elem : E₁ → E₂ → Prop
  pointer : P₁ → P₂ → Prop
  run : ∀ {α β : Type}, (α → β → Prop) → m₁ α → m₂ β → Prop
  pure : ∀ {α β : Type} {rel : α → β → Prop} {a : α} {b : β}, rel a b →
    run rel (Pure.pure a) (Pure.pure b)
  bind : ∀ {α β γ δ : Type} {rel : α → β → Prop} {rel' : γ → δ → Prop} {x : m₁ α} {y : m₂ β}
    {f : α → m₁ γ} {g : β → m₂ δ}, run rel x y → (∀ a b, rel a b → run rel' (f a) (g b)) →
    run rel' (x >>= f) (y >>= g)
  lit : ∀ n, elem (lit n) (lit n)
  add : ∀ {a b c d}, elem a b → elem c d → elem (ElementModel.add a c) (ElementModel.add b d)
  sub : ∀ {a b c d}, elem a b → elem c d → elem (ElementModel.sub a c) (ElementModel.sub b d)
  ptr : ∀ {p : Pointer}, p.Canonical → pointer (ptr p) (ptr p)
  makePointer : ∀ {a b} (tag : Tag), elem a b →
    run pointer (makePointer (StepModel.lit tag.value)
        [a, StepModel.lit 0, StepModel.lit 0, StepModel.lit 0])
      (makePointer (StepModel.lit tag.value)
        [b, StepModel.lit 0, StepModel.lit 0, StepModel.lit 0])
  payload : ∀ {p q}, pointer p q → run elem (payload p) (payload q)
  mul : ∀ {a b c d}, elem a b → elem c d → run elem (mul a c) (mul b d)
  div : ∀ {a b c d}, elem a b → elem c d →
    run (fun x y => elem x.1 y.1 ∧ elem x.2 y.2) (div a c) (div b d)
  isZero : ∀ {a b}, elem a b → run elem (isZero a) (isZero b)
  isNegative : ∀ {a b}, elem a b → run elem (isNegative a) (isNegative b)
  less : ∀ {a b c d}, elem a b → elem c d → run elem (less a c) (less b d)
  divRem : ∀ {a b c d e f}, elem a b → elem c d → Option.Rel elem e f →
    run (fun x y => elem x.1 y.1 ∧ elem x.2 y.2) (divRem a c e) (divRem b d f)
  select : ∀ {a b c d e f}, elem a b → elem c d → elem e f → run elem (select a c e) (select b d f)
  selectPointer : ∀ {a b p q r s}, elem a b → pointer p q → pointer r s →
    run pointer (selectPointer a p r) (selectPointer b q s)
  tagIs : ∀ {p q} (tag : Tag), pointer p q → run elem (tagIs p tag) (tagIs q tag)
  pointerEq : ∀ {p q r s}, pointer p q → pointer r s → run elem (pointerEq p r) (pointerEq q s)
  hash : ∀ {a b ps qs c d}, elem a b → List.Forall₂ pointer ps qs → Option.Rel elem c d →
    run pointer (hash a ps c) (hash b qs d)
  unhash : ∀ {p q} (arity : ℕ) {c d}, pointer p q → Option.Rel elem c d →
    run (List.Forall₂ pointer) (unhash p arity c) (unhash q arity d)
  emit : ∀ {p q c d}, pointer p q → Option.Rel elem c d →
    run (fun _ _ => True) (emit p c) (emit q d)

/-- Steps whose parts are related. -/
structure Step.Related {E₁ E₂ P₁ P₂ : Type} (elem : E₁ → E₂ → Prop) (pointer : P₁ → P₂ → Prop)
    (x : Step E₁ P₁) (y : Step E₂ P₂) : Prop where
  expr : pointer x.expr y.expr
  env : pointer x.env y.env
  cont : pointer x.cont y.cont
  ret : elem x.ret y.ret

/-- Flags of the same keys in the same order. -/
def FlagsRelated {κ E₁ E₂ : Type} (elem : E₁ → E₂ → Prop) :
    List (κ × E₁) → List (κ × E₂) → Prop :=
  List.Forall₂ fun x y => x.1 = y.1 ∧ elem x.2 y.2

namespace Simulation

variable {m₁ m₂ : Type → Type} {E₁ E₂ P₁ P₂ : Type} [Monad m₁] [Monad m₂] [ElementModel E₁]
  [ElementModel E₂] [PointerModel P₁] [PointerModel P₂] [StepModel m₁ E₁ P₁] [StepModel m₂ E₂ P₂]
  (sim : Simulation m₁ m₂ E₁ E₂ P₁ P₂)

/-- Steps that are related in a simulation. -/
abbrev step : Step E₁ P₁ → Step E₂ P₂ → Prop := Step.Related sim.elem sim.pointer

/-! ## Flags -/

theorem no {a : E₁} {b : E₂} (h : sim.elem a b) : sim.elem (no a) (no b) := sim.sub (sim.lit 1) h

theorem both {a : E₁} {b : E₂} (h : sim.elem a b) {as : List E₁} {bs : List E₂}
    (hs : List.Forall₂ sim.elem as bs) : sim.run sim.elem (both a as) (both b bs) := by
  unfold StepModel.both
  induction hs generalizing a b with
  | nil => exact sim.pure h
  | cons hab _ ih =>
    rw [List.foldlM_cons, List.foldlM_cons]
    exact sim.bind (sim.mul h hab) fun _ _ hproduct => ih hproduct

theorem oneOf {as : List E₁} {bs : List E₂} (hs : List.Forall₂ sim.elem as bs) :
    sim.elem (oneOf as) (oneOf bs) := by
  cases hs with
  | nil => exact sim.lit 0
  | @cons a b as bs hab hs =>
    simp only [StepModel.oneOf]
    induction hs generalizing a b with
    | nil => exact hab
    | cons h _ ih => exact ih (sim.add hab h)

theorem exclusive {a c : E₁} {b d : E₂} (h : sim.elem a b) (h' : sim.elem c d) :
    sim.run sim.elem (exclusive a c) (exclusive b d) :=
  sim.bind (sim.mul h h') fun _ _ hproduct =>
    sim.pure (sim.sub (sim.add h h') (sim.add hproduct hproduct))

theorem equal {a c : E₁} {b d : E₂} (h : sim.elem a b) (h' : sim.elem c d) :
    sim.run sim.elem (equal a c) (equal b d) := sim.isZero (sim.sub h h')

theorem flag {κ : Type} [BEq κ] {as : List (κ × E₁)} {bs : List (κ × E₂)}
    (h : FlagsRelated sim.elem as bs) (key : κ) : sim.elem (flag as key) (flag bs key) := by
  unfold StepModel.flag
  induction h with
  | nil => exact sim.lit 0
  | @cons x y as bs hxy _ ih =>
    obtain ⟨k, a⟩ := x
    obtain ⟨k', b⟩ := y
    obtain ⟨hkey, hab⟩ := hxy
    dsimp only at hkey hab
    subst hkey
    simp only [List.lookup_cons]
    cases key == k with
    | true => exact hab
    | false => exact ih

theorem flags {κ : Type} {as : List (κ × E₁)} {bs : List (κ × E₂)}
    (h : FlagsRelated sim.elem as bs) :
    List.Forall₂ sim.elem (as.map (·.2)) (bs.map (·.2)) := by
  rw [List.forall₂_map_left_iff, List.forall₂_map_right_iff]
  exact h.imp fun _ _ hxy => hxy.2

theorem flagsOf {κ ι : Type} [BEq κ] {as : List (κ × E₁)} {bs : List (κ × E₂)}
    (h : FlagsRelated sim.elem as bs) (keyOf : ι → κ) (ops : List ι) :
    List.Forall₂ sim.elem (ops.map fun op => StepModel.flag as (keyOf op))
      (ops.map fun op => StepModel.flag bs (keyOf op)) := by
  rw [List.forall₂_map_left_iff, List.forall₂_map_right_iff]
  exact List.forall₂_same.2 fun op _ => sim.flag h (keyOf op)

/-! ## Nodes -/

theorem hashTag (tag : Tag) {ps : List P₁} {qs : List P₂} {c : Option E₁} {d : Option E₂}
    (h : List.Forall₂ sim.pointer ps qs) (hc : Option.Rel sim.elem c d) :
    sim.run sim.pointer (hashTag tag ps c) (hashTag tag qs d) := sim.hash (sim.lit _) h hc

theorem child {ps : List P₁} {qs : List P₂} (h : List.Forall₂ sim.pointer ps qs) (index : ℕ) :
    sim.pointer (child ps index) (child qs index) := by
  unfold StepModel.child
  induction h generalizing index with
  | nil => exact sim.ptr (Pointer.immediate_canonical .nil 0)
  | cons hab _ ih =>
    cases index with
    | zero => exact hab
    | succ index => exact ih index

theorem unhash2 {p : P₁} {q : P₂} (h : sim.pointer p q) {c : Option E₁} {d : Option E₂}
    (hc : Option.Rel sim.elem c d) :
    sim.run (fun x y => sim.pointer x.1 y.1 ∧ sim.pointer x.2 y.2) (unhash2 p c) (unhash2 q d) :=
  sim.bind (sim.unhash 2 h hc) fun _ _ hs => sim.pure ⟨sim.child hs 0, sim.child hs 1⟩

theorem unhash3 {p : P₁} {q : P₂} (h : sim.pointer p q) {c : Option E₁} {d : Option E₂}
    (hc : Option.Rel sim.elem c d) :
    sim.run (fun x y => sim.pointer x.1 y.1 ∧ sim.pointer x.2.1 y.2.1 ∧ sim.pointer x.2.2 y.2.2)
      (unhash3 p c) (unhash3 q d) :=
  sim.bind (sim.unhash 3 h hc) fun _ _ hs =>
    sim.pure ⟨sim.child hs 0, sim.child hs 1, sim.child hs 2⟩

theorem buildList {ps : List P₁} {qs : List P₂} (h : List.Forall₂ sim.pointer ps qs)
    {c : Option E₁} {d : Option E₂} (hc : Option.Rel sim.elem c d) :
    sim.run sim.pointer (buildList ps c) (buildList qs d) := by
  unfold StepModel.buildList
  have hnil : sim.pointer (StepModel.ptr .nil) (StepModel.ptr .nil) :=
    sim.ptr (Pointer.immediate_canonical .nil 0)
  have hreverse := List.rel_reverse h
  generalize ps.reverse = ps at hreverse
  generalize qs.reverse = qs at hreverse
  generalize (StepModel.ptr .nil : P₁) = rest at hnil
  generalize (StepModel.ptr .nil : P₂) = rest' at hnil
  induction hreverse generalizing rest rest' with
  | nil => exact sim.pure hnil
  | cons hab _ ih =>
    rw [List.foldlM_cons, List.foldlM_cons]
    refine sim.bind (sim.hashTag .cons (.cons hab (.cons hnil .nil)) hc) fun _ _ hrest => ?_
    exact ih _ _ hrest

theorem truth {a : E₁} {b : E₂} (h : sim.elem a b) :
    sim.run sim.pointer (truth a) (truth b) :=
  sim.selectPointer h (sim.ptr (symbolPointer_canonical _))
    (sim.ptr (Pointer.immediate_canonical .nil 0))

theorem number {a : E₁} {b : E₂} (h : sim.elem a b) :
    sim.run sim.pointer (number a) (number b) := sim.makePointer .number h

theorem isSmall {a : E₁} {b : E₂} (h : sim.elem a b) :
    sim.run sim.elem (isSmall a) (isSmall b) :=
  sim.bind (sim.isNegative (sim.sub h (sim.lit _))) fun _ _ hbelow =>
    sim.bind (sim.isNegative h) fun _ _ hnegative =>
      sim.both (sim.no hnegative) (.cons hbelow .nil)

/-! ## Steps -/

theorem choose {a : E₁} {b : E₂} (h : sim.elem a b) {x z : Step E₁ P₁} {y w : Step E₂ P₂}
    (hxy : sim.step x y) (hzw : sim.step z w) :
    sim.run sim.step (Step.choose a x z) (Step.choose b y w) :=
  sim.bind (sim.selectPointer h hxy.expr hzw.expr) fun _ _ hexpr =>
    sim.bind (sim.selectPointer h hxy.env hzw.env) fun _ _ henv =>
      sim.bind (sim.selectPointer h hxy.cont hzw.cont) fun _ _ hcont =>
        sim.bind (sim.select h hxy.ret hzw.ret) fun _ _ hret =>
          sim.pure ⟨hexpr, henv, hcont, hret⟩

theorem failed : sim.pointer (StepModel.ptr .failed) (StepModel.ptr .failed) :=
  sim.ptr (Pointer.immediate_canonical .failed 0)

theorem fail {p : P₁} {q : P₂} (h : sim.pointer p q) (code : ErrorCode) :
    sim.step (Step.fail p code) (Step.fail q code) :=
  ⟨sim.ptr (Pointer.immediate_canonical .error code.value), h, sim.failed, sim.lit 0⟩

theorem failWith {p : P₁} {q : P₂} (h : sim.pointer p q) {a : E₁} {b : E₂} (hcode : sim.elem a b) :
    sim.run sim.step (Step.failWith p a) (Step.failWith q b) :=
  sim.bind (sim.makePointer .error hcode) fun _ _ hvalue =>
    sim.pure ⟨hvalue, h, sim.failed, sim.lit 0⟩

/-! ## Loops -/

section
variable [LawfulMonad m₁] [LawfulMonad m₂]

theorem mono {α β : Type} {rel rel' : α → β → Prop} {x : m₁ α} {y : m₂ β} (h : sim.run rel x y)
    (hrel : ∀ a b, rel a b → rel' a b) : sim.run rel' x y := by
  rw [← bind_pure x, ← bind_pure y]
  exact sim.bind h fun a b hab => sim.pure (hrel a b hab)

theorem mapM {κ α β : Type} (rel : κ → α → β → Prop) {f : κ → m₁ α} {g : κ → m₂ β}
    (h : ∀ k, sim.run (rel k) (f k) (g k)) (ks : List κ) :
    sim.run (List.Forall₂ fun a b => ∃ k, rel k a b) (ks.mapM f) (ks.mapM g) := by
  induction ks with
  | nil => exact sim.pure .nil
  | cons k ks ih =>
    rw [List.mapM_cons, List.mapM_cons]
    refine sim.bind (h k) fun a b hab => sim.bind ih fun as bs habs => sim.pure ?_
    exact .cons ⟨k, hab⟩ habs

theorem tagIn {p : P₁} {q : P₂} (h : sim.pointer p q) (tags : List Tag) :
    sim.run sim.elem (tagIn p tags) (tagIn q tags) :=
  sim.bind (sim.mapM (fun _ => sim.elem) (fun tag => sim.tagIs tag h) _) fun _ _ hflags =>
    sim.pure (sim.oneOf (hflags.imp fun _ _ ⟨_, hflag⟩ => hflag))

/-- Flags that say which of several constant pointers a pointer is. -/
theorem pointerFlags {κ : Type} {p : P₁} {q : P₂} (h : sim.pointer p q) (pointerOf : κ → Pointer)
    (hcanonical : ∀ k, (pointerOf k).Canonical) (ks : List κ) :
    sim.run (FlagsRelated sim.elem)
      (ks.mapM fun k => do
        let same ← StepModel.pointerEq p (StepModel.ptr (pointerOf k))
        Pure.pure (k, same))
      (ks.mapM fun k => do
        let same ← StepModel.pointerEq q (StepModel.ptr (pointerOf k))
        Pure.pure (k, same)) := by
  refine sim.mono (sim.mapM (fun k x y => x.1 = k ∧ y.1 = k ∧ sim.elem x.2 y.2)
    (fun k => sim.bind (sim.pointerEq h (sim.ptr (hcanonical k))) fun _ _ hsame =>
      sim.pure ⟨rfl, rfl, hsame⟩) ks) fun _ _ hflags => ?_
  exact hflags.imp fun _ _ ⟨_, hx, hy, hxy⟩ => ⟨hx.trans hy.symm, hxy⟩

end

end Simulation

end FieldLisp
