import FieldLisp.Proofs.Circuit.PhaseTracking
import FieldLisp.Proofs.Machine.StepTracking

/-!
# Frames track steps

The two phases of a frame are built one after the other, from its public variables on. If the circuit
is satisfied and the first state is the one that a step starts from, the public variables of the
second state are worth the state that the step leads to:

* `Bears`: combinations that are worth given numbers under the own valuation;
* `leads_allocMiddle`: the state between the phases;
* `leads_frame`: both phases, along a step that runs through in the marked model.
-/

namespace FieldLisp

open FieldLisp.Field (Element)

section
variable {c : Setting} {ω₀ ω : Valuation} {known : List Int → Prop} {preimages : SlotTable}
  {honest : Prop}

/-! ## The state between the phases -/

/-- Combinations that carry what they are worth, which is given numbers under the own valuation. -/
structure Bears (ω₀ : Valuation) (xs : List Combination) (values : List Int) : Prop where
  faithful : ∀ x ∈ xs, x.Faithful ω₀
  worth_eq : worth ω₀ xs = classes values

namespace Bears
variable {xs ys : List Combination} {values values' : List Int}

theorem append (h : Bears ω₀ xs values) (h' : Bears ω₀ ys values') :
    Bears ω₀ (xs ++ ys) (values ++ values') where
  faithful x hx := (List.mem_append.1 hx).elim (h.faithful x) (h'.faithful x)
  worth_eq := by
    simp only [worth, classes, List.map_append]
    exact congrArg₂ _ h.worth_eq h'.worth_eq

theorem nil : Bears ω₀ [] [] := ⟨by simp, rfl⟩

theorem cons {x : Combination} {v : Int} (hfaithful : x.Faithful ω₀)
    (hvalue : x.value = Field.reduce v) (h : Bears ω₀ xs values) :
    Bears ω₀ (x :: xs) (v :: values) where
  faithful := List.forall_mem_cons.2 ⟨hfaithful, h.faithful⟩
  worth_eq := by
    simp only [worth, classes, List.map_cons, hfaithful.under_eq, hvalue, Field.cast_reduce]
    exact congrArg _ h.worth_eq

end Bears

section
variable {inv : Synthesis → Prop} (hinv : ∀ (s : Synthesis) circuit, inv s → inv { s with circuit })
include hinv

theorem leads_alloc (v : Int) : Leads c ω₀ ω known preimages honest inv (BuildM.alloc v) fun x s =>
    (x.Faithful ω₀ ∧ x.value = Field.reduce v) ∧ inv s :=
  .ofCircuit (Circuit.meets_alloc v) (Circuit.grows_alloc v) id hinv

theorem leads_allocPointer {p : Pointer} (hp : p.digest.length = 4) :
    Leads c ω₀ ω known preimages honest inv (BuildM.allocPointer p) fun w s =>
      Bears ω₀ w.elements p.elements ∧ inv s := by
  obtain ⟨tag, digest⟩ := p
  match digest, hp with
  | [d0, d1, d2, d3], _ =>
    refine (leads_alloc hinv _).bind fun _ => .assume fun htag => ?_
    refine (leads_alloc hinv _).bind fun _ => .assume fun h0 => ?_
    refine (leads_alloc hinv _).bind fun _ => .assume fun h1 => ?_
    refine (leads_alloc hinv _).bind fun _ => .assume fun h2 => ?_
    refine (leads_alloc hinv _).bind fun _ => .assume fun h3 => ?_
    exact Leads.pure.mono (fun s hs => ⟨.cons htag.1 htag.2 <| .cons h0.1 h0.2 <| .cons h1.1 h1.2 <|
      .cons h2.1 h2.2 <| .cons h3.1 h3.2 .nil, hs⟩) fun _ _ => id

theorem leads_allocMiddle {state : State} (hstate : state.Sized) (returned : Bool)
    (hhonest : honest → ω = ω₀) :
    Leads c ω₀ ω known preimages honest inv (BuildM.allocMiddle state returned) fun mid s =>
      Bears ω₀ (mid.wires ++ [mid.ret]) (state.elements ++ [Workspace.bit returned]) ∧ inv s := by
  simp only [State.Sized, State.pointers, List.mem_cons, List.not_mem_nil, or_false,
    forall_eq_or_imp, forall_eq] at hstate
  obtain ⟨hexpr, henv, hcont⟩ := hstate
  refine (leads_allocPointer hinv hexpr).bind fun _ => .assume fun hexpr => ?_
  refine (leads_allocPointer hinv henv).bind fun _ => .assume fun henv => ?_
  refine (leads_allocPointer hinv hcont).bind fun _ => .assume fun hcont => ?_
  refine (Leads.ofCircuit (Gadget.meets_allocBit returned) (Gadget.grows_allocBit returned) hhonest
    hinv).bind fun ret => .assume fun hret => ?_
  have hbit : ret.value = Field.reduce (Workspace.bit returned) := by
    rw [hret.value_eq]
    cases returned <;> rfl
  exact Leads.pure.mono (fun s hs => ⟨((hexpr.append henv).append hcont).append
    (.cons hret.faithful hbit .nil), hs⟩) fun _ _ => id

end

/-! ## Steps -/

theorem worth_append (xs ys : List Combination) : worth ω (xs ++ ys) = worth ω xs ++ worth ω ys :=
  List.map_append

theorem classes_append (xs ys : List Int) : classes (xs ++ ys) = classes xs ++ classes ys :=
  List.map_append

/-- Wires that are worth the pointers of a state track them. -/
theorem wireTracks_state {expr env cont : Wire} {state : State}
    (hfaithful : ∀ x ∈ expr.elements ++ env.elements ++ cont.elements, x.Faithful ω₀)
    (hcanonical : state.Canonical)
    (hworth : worth ω (expr.elements ++ env.elements ++ cont.elements) = classes state.elements) :
    WireTracks ω₀ ω expr (.certain state.expr) ∧ WireTracks ω₀ ω env (.certain state.env) ∧
      WireTracks ω₀ ω cont (.certain state.cont) := by
  have hlength {p : Pointer} (hp : p.Canonical) (w : Wire) :
      (worth ω w.elements).length = (classes p.elements).length := by
    rw [worth, classes, List.length_map, List.length_map, hp.1]
    rfl
  simp only [List.append_assoc, List.mem_append] at hfaithful
  simp only [State.elements, worth_append, classes_append, List.append_assoc] at hworth
  obtain ⟨hexpr, hworth⟩ := List.append_inj hworth (hlength hcanonical.1 expr)
  obtain ⟨henv, hcont⟩ := List.append_inj hworth (hlength hcanonical.2.1 env)
  have certain {w : Wire} {p : Pointer} (hw : ∀ x ∈ w.elements, x.Faithful ω₀) (hp : p.Canonical)
      (hworth : worth ω w.elements = classes p.elements) : WireTracks ω₀ ω w (.certain p) :=
    ⟨hw, hp, fun _ => hworth, fun h => absurd h Bool.false_ne_true⟩
  exact ⟨certain (fun x hx => hfaithful x (.inl hx)) hcanonical.1 hexpr,
    certain (fun x hx => hfaithful x (.inr (.inl hx))) hcanonical.2.1 henv,
    certain (fun x hx => hfaithful x (.inr (.inr hx))) hcanonical.2.2 hcont⟩

theorem stepTracks_marked {mid : Step Combination Wire} {state : State} {returned : Bool}
    (hfaithful : ∀ x ∈ mid.wires ++ [mid.ret], x.Faithful ω₀) (hcanonical : state.Canonical)
    (hworth : worth ω (mid.wires ++ [mid.ret]) =
      classes (state.elements ++ [Workspace.bit returned])) :
    StepTracks ω₀ ω mid (state.marked returned) := by
  rw [worth_append, classes_append] at hworth
  obtain ⟨hwires, hret⟩ := List.append_inj' hworth rfl
  simp only [worth, classes, List.map_cons, List.map_nil, List.cons.injEq, and_true] at hret
  obtain ⟨hexpr, henv, hcont⟩ := wireTracks_state
    (fun x hx => hfaithful x (List.mem_append_left _ hx)) hcanonical hwires
  exact ⟨hexpr, henv, hcont, hfaithful _ (by simp),
    (Workspace.sameElement_bit true returned).canonical, fun _ => hret⟩

/-- Wires that track a concluded outcome are worth it. -/
theorem worth_wires {o : Step Combination Wire} {out : Step (Marked Int) MarkedPointer} {store : Store}
    (ho : StepTracks ω₀ ω o out) (hout : out.Concluded store) :
    worth ω o.wires = classes out.state.elements := by
  simp only [Step.wires, State.elements, worth_append, classes_append,
    ho.expr.worth_eq hout.expr.sure, ho.env.worth_eq hout.env.sure, ho.cont.worth_eq hout.cont.sure]
  rfl

namespace Passage
variable {fill : SlotKey → List Pointer} {config : Config} {store store' : Store} {F : Frame}
  (P : Passage c fill config store F store')
include P

/-- In the end the slots of the evaluation phase are what they were after it. -/
theorem slots_eval {key : SlotKey} (h : key.phase = .eval) :
    F.slots.get? key = P.middle.slots.get? key := by
  have hread := MarkM.passes _ P.continues.follows.read
  have hrun := MarkM.passes _ P.continues.follows.run
  have hphase : P.contRead.beginRules.cursor.phase = .cont := hread.phase
  rw [← P.slots, hrun.slots key fun hahead => nomatch h.symm.trans (hahead.1.trans hphase)]
  exact hread.slots key fun hahead => nomatch h.symm.trans hahead.1

/-- The evaluation phase leaves the slots of the other phase empty. -/
theorem slots_cont {key : SlotKey} (h : key.phase = .cont) : P.middle.slots.get? key = none := by
  have hread := MarkM.passes _ P.evaluates.follows.read
  have hrun := MarkM.passes _ P.evaluates.follows.run
  have hphase : P.evalRead.beginRules.cursor.phase = .eval := hread.phase
  rw [hrun.slots key fun hahead => nomatch h.symm.trans (hahead.1.trans hphase)]
  exact hread.slots key fun hahead => nomatch h.symm.trans hahead.1

end Passage

/-- What fills the slots that a setting leaves over is what the frame's slots hold. -/
def Supposes (c : Setting) (slots : SlotTable) : Prop :=
  ∀ {key : SlotKey}, 0 ≤ key.arity → Decodes (Synthesis.content slots key) (c.fill key)

theorem Supposes.settled {slots : SlotTable} {fill : SlotKey → List Pointer}
    (h : Supposes (c.idle fill) slots) (W : MarkWorld) : Settled (c.idle fill) slots W where
  recorded := nofun
  leftOver harity _ := h harity

/-- A slot that is left empty holds nil in all its places. -/
theorem decodes_empty {slots : SlotTable} {key : SlotKey} (harity : 0 ≤ key.arity)
    (h : slots.get? key = none) :
    Decodes (Synthesis.content slots key) (List.replicate key.arity.toNat .nil) := by
  have hsize : (preimageSize key.arity).toNat = key.arity.toNat * 5 + 1 := by
    unfold preimageSize
    omega
  have helements : Pointer.nil.elements = List.replicate 5 0 := rfl
  refine ⟨0, ?_⟩
  rw [Synthesis.content, h, Option.getD_none, hsize, List.replicate_succ, List.flatMap_replicate,
    helements, List.flatten_replicate_replicate]

namespace Passage
variable {fill : SlotKey → List Pointer} {config : Config} {store store' : Store} {F : Frame}
  (P : Passage c fill config store F store')
include P

theorem settled_middle (hcomputes : c.Computes) : Settled c F.slots P.middle := by
  have hphase : P.middle.cursor.phase = .eval :=
    (MarkM.passes _ P.evaluates.follows.run).phase.trans
      (MarkM.passes _ P.evaluates.follows.read).phase
  refine ⟨fun _ key preimage hbehind hget => ?_, fun {key} harity h => ?_⟩
  · rw [P.slots_eval (hbehind.1.trans hphase), hget]
  · obtain ⟨hbehind, hnone⟩ := h hcomputes.gate
    rw [hcomputes.fill]
    exact decodes_empty harity ((P.slots_eval (hbehind.1.trans hphase)).trans hnone)

theorem settled_last (hcomputes : c.Computes) : Settled c F.slots P.last := by
  refine ⟨fun _ key preimage _ hget => ?_, fun {key} harity h => ?_⟩
  · rw [← P.slots, hget]
  · rw [hcomputes.fill]
    exact decodes_empty harity (P.slots ▸ (h hcomputes.gate).2)

end Passage

/-- What is settled after the rules of a phase was settled before them. -/
theorem Settled.beforeRules {preimages : SlotTable} {W W' : MarkWorld} (h : Settled c preimages W')
    (hpasses : W.beginRules.Passes W') : Settled c preimages W :=
  ⟨(h.passes hpasses).recorded, (h.passes hpasses).leftOver⟩

/-- A frame that is built along a step: its output is worth the state that the step leads to. -/
theorem leads_frame (hcomputes : c.Computes) {fill : SlotKey → List Pointer}
    (hjudges : c.Judges ω₀ ω known) (hjudges' : (c.idle fill).Judges ω₀ ω known) {config : Config}
    {store store' : Store} {F : Frame} (P : Passage c fill config store F store')
    (hready : Ready c known (MarkWorld.ofStore store))
    (hsettled : c.honest = true → preimages = F.slots ∧ Supposes (c.idle fill) F.slots)
    {G : Frame} (hG : G.intermediate.Sized) {expr env cont : Wire}
    (hexpr : WireTracks ω₀ ω expr (.certain F.input.expr))
    (henv : WireTracks ω₀ ω env (.certain F.input.env))
    (hcont : WireTracks ω₀ ω cont (.certain F.input.cont)) {output : List Combination}
    (houtput : output.length = stateSize) :
    Leads c ω₀ ω known preimages
      (c.honest = true ∧ G.rule = F.rule ∧ G.returnRule = F.returnRule ∧
        G.intermediate = F.intermediate ∧ G.returned = F.returned ∧
        worth ω output = classes F.output.elements)
      (fun s => s.cursor.base = (fun _ => 0) ∧ s.gate = none)
      (BuildM.frame config G expr env cont output) fun _ _ =>
        worth ω output = classes F.output.elements ∧ (ω = ω₀ → G.rule = F.rule ∧
          G.returnRule = F.returnRule ∧
          classes (G.intermediate.elements ++ [Workspace.bit G.returned]) =
            classes (F.intermediate.elements ++ [Workspace.bit F.returned])) := by
  have hmid := P.evaluates.follows.concluded
  have hout := P.continues.follows.concluded
  have hcanonical : F.intermediate.Canonical := P.evaluates.state ▸ hmid.held.canonical
  have hcanonical' : F.output.Canonical := P.continues.state ▸ hout.held.canonical
  set result := classes (F.intermediate.elements ++ [Workspace.bit F.returned]) with hresult
  have hlength : result.length = stateSize + 1 := by
    simp [hresult, classes, State.length_elements hcanonical]
  refine ((leads_allocMiddle (fun _ _ => id) hG G.returned fun h => hjudges.honest h.1).within
    "intermediate" (fun _ _ => id) fun _ _ _ => id).bind fun mid => .assume fun hbears => ?_
  have htarget : (mid.wires ++ [mid.ret]).length = stateSize + 1 := by
    simp [Step.wires, Wire.elements, Digest.toList, stateSize, pointerSize]
  have hproduced (o : Step Combination Wire) (ho : StepTracks ω₀ ω o P.mid) :
      worth ω (o.wires ++ [o.ret]) = result := by
    have hret := ho.ret.under_eq (by rw [P.evaluates.ret]; rfl)
    rw [P.evaluates.ret] at hret
    rw [worth_append, worth_wires ho hmid, P.evaluates.state, hresult, classes_append]
    exact congrArg (_ ++ [·]) hret
  have hproduced' (o : Step Combination Wire) (ho : StepTracks ω₀ ω o P.out) :
      worth ω o.wires = classes F.output.elements := by
    rw [worth_wires ho hout, P.continues.state]
  have hsettled' (h : c.honest = true) : Settled c preimages P.middle ∧ Settled c preimages P.last ∧
      ∀ W, Settled (c.idle fill) preimages W := by
    obtain ⟨rfl, hsupposes⟩ := hsettled h
    exact ⟨P.settled_middle hcomputes, P.settled_last hcomputes, hsupposes.settled⟩
  -- The state between the phases is the one that the evaluation phase ends in.
  have heval := leads_build EvalRule.nodup_all (EvalRule.mem_all F.rule) hcomputes.gate hjudges hjudges'
    (Course.related_eval hjudges.tracking config.lookupDepth hexpr henv hcont)
    (Course.related_eval hjudges'.tracking config.lookupDepth hexpr henv hcont)
    (W := MarkWorld.ofStore store) ⟨hready.sound, hready.nodes, fun _ => rfl⟩ P.evaluates.follows
    P.evaluates.idles (fun h => ⟨(hsettled' h).1.beforeRules
      (MarkM.passes _ P.evaluates.follows.run), (hsettled' h).1, (hsettled' h).2.2⟩)
    hproduced (htarget.trans hlength.symm) "eval/prelude" (fun rule => "eval/" ++ rule.name.toLower)
    G.rule
  refine ((heval.imp ?_).mono (fun _ => id) fun _ s hs =>
    (⟨hs.2.2, hs.1, hs.2.1⟩ : (_ ∧ _ ∧ _) ∧ _ ∧ _)).bind fun _ => .assume fun hmiddle => ?_
  · rintro ⟨hhonest, hrule, -, hintermediate, hreturned, -⟩
    refine ⟨hhonest, hrule, ?_⟩
    rw [hjudges.honest hhonest, hbears.worth_eq, hintermediate, hreturned]
  obtain ⟨hrule, hworth, hready⟩ := hmiddle
  have hstep := stepTracks_marked hbears.faithful hcanonical hworth
  have hcontinue := leads_build ContRule.nodup_all (ContRule.mem_all F.returnRule) hcomputes.gate hjudges
    hjudges' (Course.related_cont hjudges.tracking hstep) (Course.related_cont hjudges'.tracking hstep)
    (W := P.middle) ⟨hready.sound, hready.nodes, fun hahead => P.slots_cont hahead.1⟩
    P.continues.follows P.continues.idles (fun h => ⟨(hsettled' h).2.1.beforeRules
      (MarkM.passes _ P.continues.follows.run), (hsettled' h).2.1, (hsettled' h).2.2⟩)
    hproduced' (by rw [houtput, classes, List.length_map, State.length_elements hcanonical'])
    "cont/prelude" (fun rule => "cont/" ++ rule.name.toLower) G.returnRule
  refine (hcontinue.imp fun h => ⟨h.1, h.2.2.1, h.2.2.2.2.2⟩).mono (fun _ => id)
    fun _ s hs => ⟨hs.2.2.2.1, fun hown => ⟨hrule hown, hs.2.2.1 hown, ?_⟩⟩
  rw [← hbears.worth_eq, ← hown, hworth]

end

end FieldLisp
