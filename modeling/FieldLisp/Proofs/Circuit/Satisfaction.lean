import FieldLisp.Proofs.Circuit.Growth
import FieldLisp.Proofs.Circuit.Valuation

/-!
# What operations promise about satisfied circuits

Two valuations matter while a circuit is built: the one that its own assignment gives, and one that
somebody else may choose. An operation is judged against both at once:

* `Fits`: a valuation agrees with the assignment of a circuit;
* `Satisfied`: a valuation satisfies all constraints of a circuit;
* `Meets`: in a satisfied circuit the result of an operation has a property; and when the operation
  is used honestly, it satisfies the constraints that it adds;
* `Meets.bind`, `Meets.mapM`, `Meets.foldlM`: promises are composed like the operations.
-/

namespace FieldLisp

open FieldLisp.Field (Element)
open EStateM (bind_eq_ok pure_eq_ok)

namespace Circuit

/-- The valuation agrees with the assignment. -/
def Fits (ω : Valuation) (s : Circuit) : Prop :=
  ∀ (i : ℕ) (v : Int), s.assignment.toList[i]? = some v → ω.value i = v

/-- The valuation satisfies all constraints. -/
def Satisfied (ω : Valuation) (s : Circuit) : Prop := ∀ k ∈ s.constraints.toList, k.Holds ω

theorem Extends.fits {s t : Circuit} (h : Extends s t) {ω : Valuation} (ht : t.Fits ω) :
    s.Fits ω := by
  intro i v hi
  refine ht i v ?_
  obtain ⟨suffix, hsuffix⟩ := h.assignment
  have hlt : i < s.assignment.toList.length := (List.getElem?_eq_some_iff.1 hi).1
  rw [← hsuffix, List.getElem?_append_left hlt, hi]

theorem Extends.satisfied {s t : Circuit} (h : Extends s t) {ω : Valuation}
    (ht : t.Satisfied ω) : s.Satisfied ω :=
  fun k hk => ht k (h.constraints.subset hk)

/-- Without a limit: if the circuit after the operation is satisfied, its result has the property;
and if the operation is used honestly, then it keeps a satisfied circuit satisfied. The own
valuation `ω₀` fits the circuit, `ω` is the one that satisfies it. -/
def Meets (ω₀ ω : Valuation) (honest : Prop) (x : CircuitM α) (post : α → Prop) : Prop :=
  ∀ s a t, s.limit = none → x s = .ok a t → t.Fits ω₀ →
    (honest → s.Satisfied ω → t.Satisfied ω) ∧ (t.Satisfied ω → post a)

namespace Meets
variable {ω₀ ω : Valuation} {honest : Prop}

theorem pure {a : α} {post : α → Prop} (h : post a) :
    Meets ω₀ ω honest (Pure.pure a : CircuitM α) post := by
  intro s b t _ hx _
  obtain ⟨rfl, rfl⟩ := pure_eq_ok.1 hx
  exact ⟨fun _ => id, fun _ => h⟩

theorem bind {x : CircuitM α} {f : α → CircuitM β} {mid : α → Prop} {post : β → Prop}
    (hx : Meets ω₀ ω honest x mid) (gx : Grows x) (gf : ∀ a, Grows (f a))
    (hf : ∀ a, mid a → Meets ω₀ ω honest (f a) post) : Meets ω₀ ω honest (x >>= f) post := by
  intro s b u hs h hfits
  obtain ⟨a, t, hxs, hft⟩ := bind_eq_ok.1 h
  have ht : t.limit = none := gx.limit_of_ok hs hxs
  have hext : Extends t u := (gf a).extends_of_ok ht hft
  obtain ⟨hkeep, hmid⟩ := hx s a t hs hxs (hext.fits hfits)
  refine ⟨fun honest hsat => ?_, fun hsat => ?_⟩
  · have hsat := hkeep honest hsat
    exact (hf a (hmid hsat) t b u ht hft hfits).1 honest hsat
  · exact (hf a (hmid (hext.satisfied hsat)) t b u ht hft hfits).2 hsat

theorem mono {honest' : Prop} {x : CircuitM α} {post post' : α → Prop}
    (hx : Meets ω₀ ω honest x post) (hh : honest' → honest) (hp : ∀ a, post a → post' a) :
    Meets ω₀ ω honest' x post' := by
  intro s a t hs h hfits
  obtain ⟨hkeep, hpost⟩ := hx s a t hs h hfits
  exact ⟨hkeep ∘ hh, hp a ∘ hpost⟩

theorem mapM {f : α → CircuitM β} (rel : α → β → Prop) {xs : List α} (gf : ∀ a, Grows (f a))
    (hf : ∀ a ∈ xs, Meets ω₀ ω honest (f a) (rel a)) :
    Meets ω₀ ω honest (xs.mapM f) (List.Forall₂ rel xs) := by
  induction xs with
  | nil => exact .pure .nil
  | cons x xs ih =>
    rw [List.mapM_cons]
    refine (hf x List.mem_cons_self).bind (gf x)
      (fun _ => (Grows.mapM gf xs).bind fun _ => .pure _) fun y hy => ?_
    refine (ih fun a ha => hf a (List.mem_cons_of_mem _ ha)).bind (.mapM gf xs)
      (fun _ => .pure _) fun ys hys => .pure (.cons hy hys)

theorem forM {f : α → CircuitM Unit} {P : α → Prop} {xs : List α} (gf : ∀ a, Grows (f a))
    (hf : ∀ a ∈ xs, Meets ω₀ ω honest (f a) fun _ => P a) :
    Meets ω₀ ω honest (xs.forM f) fun _ => ∀ a ∈ xs, P a := by
  induction xs with
  | nil => exact .pure (by simp)
  | cons x xs ih =>
    refine (hf x List.mem_cons_self).bind (gf x) (fun _ => .forM gf xs) fun _ hx => ?_
    refine (ih fun a ha => hf a (List.mem_cons_of_mem _ ha)).mono id fun _ hxs => ?_
    simpa using ⟨hx, hxs⟩

theorem foldlM {f : β → α → CircuitM β} {inv : β → List α → Prop} {b : β} {xs : List α}
    (gf : ∀ b a, Grows (f b a))
    (hf : ∀ b a rest, inv b (a :: rest) → Meets ω₀ ω honest (f b a) (inv · rest))
    (hb : inv b xs) : Meets ω₀ ω honest (xs.foldlM f b) (inv · []) := by
  induction xs generalizing b with
  | nil => exact .pure hb
  | cons x xs ih =>
    exact (hf b x xs hb).bind (gf b x) (fun c => .foldlM gf c xs) fun c hc => ih hc

theorem vectorMapM {α β : Type} {n : ℕ} {f : α → CircuitM β} {rel : α → β → Prop}
    {xs : Vector α n} (gf : ∀ a, Grows (f a)) (hf : ∀ a ∈ xs, Meets ω₀ ω honest (f a) (rel a)) :
    Meets ω₀ ω honest (xs.mapM f) fun ys => List.Forall₂ rel xs.toList ys.toList := by
  intro s ys t hs h hfits
  exact mapM rel gf (fun a ha => hf a (Vector.mem_toList_iff.1 ha)) s ys.toList t hs
    (EStateM.toList_mapM_eq_ok h) hfits

theorem within {x : CircuitM α} {post : α → Prop} (hx : Meets ω₀ ω honest x post)
    (name : String) : Meets ω₀ ω honest (Circuit.within name x) post := by
  intro s a t hs h hfits
  obtain ⟨u, hrun, rfl⟩ := within_eq_ok.1 h
  exact hx (s.enter name) a u hs hrun hfits

end Meets

/-! ## Variables and constraints -/

section
variable {ω₀ ω : Valuation}

theorem meets_alloc {honest : Prop} (v : Int) :
    Meets ω₀ ω honest (alloc v) fun c => c.Faithful ω₀ ∧ c.value = Field.reduce v := by
  intro s c t _ h hfits
  cases h
  refine ⟨fun _ => id, fun _ => ⟨.ofVariable (Field.reduce_canonical v) ?_, rfl⟩⟩
  refine hfits _ _ ?_
  simp

theorem meets_enforce (a b c : Combination) :
    Meets ω₀ ω (a.under ω * b.under ω = c.under ω) (enforce a b c)
      fun _ => a.under ω * b.under ω = c.under ω := by
  intro s u t hs h _
  rw [enforce_eq hs] at h
  cases h
  refine ⟨fun hk hsat k hmem => ?_, fun hsat => ?_⟩
  · rw [Array.toList_push, List.mem_append, List.mem_singleton] at hmem
    rcases hmem with hmem | rfl
    · exact hsat k hmem
    · exact hk
  · refine hsat ⟨a.terms, b.terms, c.terms⟩ ?_
    simp

/-- A product is worth the product, also where a constant factor needs no constraint. -/
theorem meets_mul {a b : Combination} (ha : a.Faithful ω₀) (hb : b.Faithful ω₀) :
    Meets ω₀ ω (ω = ω₀) (mul a b) fun c => c.Faithful ω₀ ∧
      c.value = Field.reduce (a.value * b.value) ∧ c.under ω = a.under ω * b.under ω := by
  unfold mul
  split
  · rename_i hconst
    refine .pure ⟨hb.scale _, by rw [hb.value_scale, mul_comm], ?_⟩
    rw [Combination.under_scale, ha.under_eq_of_isConstant hconst ω, mul_comm]
  · split
    · rename_i hconst
      refine .pure ⟨ha.scale _, ha.value_scale _, ?_⟩
      rw [Combination.under_scale, hb.under_eq_of_isConstant hconst ω]
    · refine (meets_alloc _).bind (grows_alloc _)
        (fun _ => (grows_enforce _ _ _).bind fun _ => .pure _) fun c hc => ?_
      refine ((meets_enforce a b c).mono ?_ fun _ => id).bind (grows_enforce _ _ _)
        (fun _ => .pure _) fun _ hlaw => .pure ⟨hc.1, hc.2, hlaw.symm⟩
      rintro rfl
      rw [ha.under_eq, hb.under_eq, hc.1.under_eq, hc.2, Field.cast_reduce, Int.cast_mul]

end

end Circuit

end FieldLisp
