import FieldLisp.Proofs.Machine.Correspondence

/-!
# Pursuits that correspond

A step of the first run, which binds a symbol plainly, and one of the second run, which binds it recursively, lead from
pursuits that correspond to pursuits that correspond, unless they tell the two kinds apart:

* `Corresponds`: expressions, environments and nodes of both pursuits correspond;
* `Parting`: the steps that tell the two kinds apart;
* `Corresponds.looks`, `Corresponds.reports`: both decide, and report, what corresponds;
* `Corresponds.move`: both go on to what corresponds.
-/

namespace FieldLisp

open Store

variable {s s' t t' u : Store} {f : Fork} {expr expr' env env' v v' : Pointer} {w w' : Waiting} {depth : ℕ}
  {pursuit pursuit' : Pursuit}

/-! ## Pursuits that correspond -/

/-- The pursuit of the second run that corresponds to one of the first run. -/
structure Corresponds (u : Store) (f : Fork) (pursuit pursuit' : Pursuit) : Prop where
  evaluates : Evaluates u f pursuit.expr pursuit'.expr
  env : Counterpart u f .env pursuit.env pursuit'.env
  waits : List.Forall₂ (Waits u f) pursuit.stack pursuit'.stack

/-- What the evaluation phase decides of a pursuit. -/
def Pursuit.look (depth : ℕ) (pursuit : Pursuit) (u : Store) : Look :=
  (EvalPhase.look depth pursuit.expr pursuit.env u).1

/-- A larger store has what a step of a pursuit takes in. -/
structure Pursuit.Stepped (depth : ℕ) (pursuit : Pursuit) (u : Store) : Prop where
  looked : EvalPhase.Looked u depth pursuit.expr pursuit.env
  turned : ∀ v w stack, pursuit.look depth u = .value v → pursuit.stack = w :: stack →
    ContPhase.Turned u w v pursuit.env

/-- A step of a pursuit compares two operands. -/
structure Pursuit.Compares (depth : ℕ) (pursuit : Pursuit) (u : Store) (w : Waiting) (stack : List Waiting)
    (v : Pointer) : Prop where
  look : pursuit.look depth u = .value v
  stack : pursuit.stack = w :: stack
  tag : w.tag = .binary2
  operator : binaryOf? w.first = some .same

/-- The steps of both runs tell the plain binding from the recursive one. -/
inductive Parting (depth : ℕ) (u : Store) (f : Fork) (pursuit pursuit' : Pursuit) : Prop
  /-- A symbol has another value in the environment of the function, which the search of the first run comes to, than in
  the one of the binding, which that of the second run comes to instead. -/
  | strays (hvariable : u.expression pursuit.expr = .variable) (hsame : pursuit'.expr = pursuit.expr)
      (hstrays : f.Strays u depth pursuit.expr pursuit.env) (hleads : u.Leads pursuit.expr pursuit'.env f.recursive)
  /-- A lookup of the second run exceeds its bound. -/
  | exceeds (hfunction : f.value.tag = .function) (hvariable : u.expression pursuit'.expr = .variable)
      (hbeyond : u.search pursuit'.expr depth pursuit'.env = .beyond)
  /-- Two operands in which functions stand are the same in one run only. -/
  | compares {v v' : Pointer} {w w' : Waiting} {stack stack' : List Waiting}
      (hcompares : pursuit.Compares depth u w stack v) (hcompares' : pursuit'.Compares depth u w' stack' v')
      (hcarries : u.Carries w.second ∧ u.Carries v) (hdiffers : (w'.second == v') ≠ (w.second == v))

/-- A node of the second run reports what it is handed if the node of the first run does. -/
theorem Waits.report (h : Waits u f w w') {r' : Pointer} (hreport : w'.report? v' = some r') (v : Pointer) :
    w.report? v = some v ∧ r' = v' := by
  unfold Waiting.report? at hreport ⊢
  cases h with
  | unary operator =>
    split at hreport
    · rename_i hemits
      cases hreport
      exact ⟨if_pos hemits, rfl⟩
    · cases hreport
  | bind recursive => cases recursive <;> cases hreport
  | _ => cases hreport

/-- The first operands of both runs correspond. -/
theorem Waits.operands (h : Waits u f w w') (htag : w.tag = .binary2) :
    w'.tag = .binary2 ∧ w'.first = w.first ∧ Counterpart u f .value w.second w'.second := by
  cases h with
  | binary2 operator ha => exact ⟨rfl, rfl, ha⟩
  | bind recursive => cases recursive <;> cases htag
  | _ => cases htag

namespace Corresponds

/-- A turn below corresponding nodes. -/
theorem of_turns {turn turn' : Turn} {stack stack' : List Waiting} (h : Turns u f turn turn')
    (hstack : List.Forall₂ (Waits u f) stack stack') :
    ∃ next next', turn.move stack = .goes next ∧ turn'.move stack' = .goes next' ∧ Corresponds u f next next' := by
  cases h with
  | enter hexpr henv => exact ⟨_, _, rfl, rfl, ⟨hexpr, henv, hstack⟩⟩
  | wait hexpr henv hw => exact ⟨_, _, rfl, rfl, ⟨hexpr, henv, .cons hw hstack⟩⟩

section
variable (hf : f.Fits u) (h : Corresponds u f pursuit pursuit') (hparting : ¬Parting depth u f pursuit pursuit')
  (hgoes : ∀ env code, pursuit.move depth u ≠ .stops env code)
include hf h hparting hgoes

section
variable (hlooked : EvalPhase.Looked u depth pursuit.expr pursuit.env)
  (hlooked' : EvalPhase.Looked u depth pursuit'.expr pursuit'.env)
include hlooked hlooked'

/-- The evaluation phases of corresponding pursuits take corresponding decisions. -/
theorem looks : Looks u f (pursuit.look depth u) (pursuit'.look depth u) := by
  apply EvalPhase.looks hf h.env hlooked _ h.evaluates hlooked'
  · exact fun hsame hvariable hleads hstrays => hparting (.strays hvariable hsame hstrays hleads)
  · exact fun hfunction hvariable hbeyond => hparting (.exceeds hfunction hvariable hbeyond)
  · intro env code hlook
    apply hgoes env code
    rw [Pursuit.move, hlook]
    rfl

/-- If the second run reports a value, the first one reports a value that it corresponds to. -/
theorem reports (hreport : pursuit'.report? depth u = some v') :
    ∃ v, pursuit.report? depth u = some v ∧ Counterpart u f .value v v' := by
  have hlooks := h.looks hf hparting hgoes hlooked hlooked'
  have hwaits := h.waits
  unfold Pursuit.report? at hreport ⊢
  rw [← Pursuit.look] at hreport ⊢
  generalize pursuit.look depth u = decision at hlooks
  generalize pursuit'.look depth u = decision' at hlooks hreport
  cases hlooks with
  | turn => cases hreport
  | @value v r hv =>
    generalize pursuit.stack = nodes at hwaits
    generalize pursuit'.stack = nodes' at hwaits hreport
    cases hwaits with
    | nil => cases hreport
    | cons hw =>
      obtain ⟨hreported, rfl⟩ := hw.report hreport v
      exact ⟨v, hreported, hv⟩

end

/-- A step leads from corresponding pursuits to corresponding ones, or both runs hand a value on that corresponds. -/
theorem move (hstepped : pursuit.Stepped depth u) (hstepped' : pursuit'.Stepped depth u) :
    (∃ v v' env env', pursuit.move depth u = .returns v env ∧ pursuit'.move depth u = .returns v' env' ∧
      Counterpart u f .value v v') ∨
    ∃ next next', pursuit.move depth u = .goes next ∧ pursuit'.move depth u = .goes next' ∧
      Corresponds u f next next' := by
  have hlooks := h.looks hf hparting hgoes hstepped.looked hstepped'.looked
  have hwaits := h.waits
  unfold Pursuit.move at hgoes ⊢
  rw [← Pursuit.look] at hgoes ⊢
  rw [← Pursuit.look]
  generalize hlook : pursuit.look depth u = decision at hlooks hgoes
  generalize hlook' : pursuit'.look depth u = decision' at hlooks
  cases hlooks with
  | turn hturn => exact .inr (of_turns hturn hwaits)
  | @value v v' hv =>
    generalize hstack : pursuit.stack = nodes at hwaits hgoes
    generalize hstack' : pursuit'.stack = nodes' at hwaits
    cases hwaits with
    | nil => exact .inl ⟨v, v', _, _, rfl, rfl, hv⟩
    | @cons w w' stack stack' hw hrest =>
      refine .inr (of_turns ?_ hrest)
      apply ContPhase.turns hw hv h.env (hstepped.turned v w stack hlook hstack)
        (hstepped'.turned v' w' stack' hlook' hstack')
      · -- Operands in which no function stands are the same in both runs or in none.
        intro htag hoperator
        obtain ⟨htag', hfirst, ha⟩ := hw.operands htag
        by_contra hdiffers
        apply hparting
        refine .compares ⟨hlook, hstack, htag, hoperator⟩
          ⟨hlook', hstack', htag', by rw [hfirst, hoperator]⟩ ?_ hdiffers
        by_contra hcarries
        exact hdiffers (ha.beq_eq hv (not_and_or.1 hcarries))
      · intro env' code hstop
        apply hgoes env' code
        dsimp only
        rw [hstop]
        rfl

end

end Corresponds

end FieldLisp
