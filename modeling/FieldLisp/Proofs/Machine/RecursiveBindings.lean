import FieldLisp.Proofs.Machine.Companions

/-!
# Recursive bindings

The run of a form of bindings and that of its recursive kind go on in one state until the symbol has its value. From
then on they correspond, until they tell the two kinds apart:

* `Machine.Pending.bound`, `Machine.bindings_value`: both bind one value, and go on to the body;
* `Machine.PartLater`: both tell the two kinds apart in a later frame;
* `Machine.Fork.completes`, `Machine.bindings_complete`: if the first run comes to a number, so does the second one, in
  as many steps at most, or they part;
* `Machine.PartLater.strays`: if the first run compares nothing and the second one ends well, a lookup strays.
-/

namespace FieldLisp.Machine

open Store

variable {s s' t t' r u : Store} {config : Config} {p q x e body env env' base v : Pointer} {recursive : Bool}
  {pursuit : Pursuit} {frames frames' : List Frame} {F : Frame} {final : State}

/-! ## The step that binds the value -/

/-- A step that hands a value to a form of bindings goes on to the body. -/
theorem Pending.bound (h : Pending ((bindNode recursive x body env).onto base) pursuit s) (hfaithful : s.Faithful)
    (hstacked : s.Stacked base [bindNode recursive x body env])
    (hvalue : (middle config (pursuit.on ((bindNode recursive x body env).onto base)) s).1 =
      ⟨⟨v, env', (bindNode recursive x body env).onto base⟩, true⟩) :
    ∃ F t, RanTo config (pursuit.on ((bindNode recursive x body env).onto base)) s [F]
        ⟨body, nodePointer (bindEnv recursive) [x, v, env], base⟩ t ∧
      Hands F v ((bindNode recursive x body env).onto base) ∧
      Pending base ⟨body, nodePointer (bindEnv recursive) [x, v, env], []⟩ t ∧
      ∀ u, t.Settled u → u.HasNode (bindEnv recursive) [x, v, env] := by
  have hs := reachable_sound h.reachable
  obtain ⟨F, t, hstep, -, hreturned, hintermediate, hleads, -⟩ :=
    h.hands (hfaithful _ _ _ hstacked.1) hvalue (.refl _) (bindNode_silent ..)
  rw [enters_bindNode, Turn.move, Move.leads_goes_iff] at hleads
  have hran := RanTo.step hstep
  obtain ⟨ht, hheld⟩ := reachable_step h.reachable h.held hstep
  rw [hleads.1] at hran hheld
  refine ⟨F, t, hran, ⟨hreturned, by rw [hintermediate], by rw [hintermediate]⟩, ⟨ht, hheld, trivial⟩, fun u hu => ?_⟩
  rw [(step_ok hs h.held hstep).1] at hu
  exact (turned_of_middle hs h.held (hfaithful _ _ _ hstacked.1) hvalue hu).bound rfl

/-! ## From the value on -/

/-- If the body comes to a number in the environment of the first run, it comes to it in that of the second run, or the
two runs part. -/
theorem Fork.completes {f : Fork} (hleft : Pending .outermost ⟨body, f.plain, []⟩ t)
    (hright : Pending .outermost ⟨body, f.recursive, []⟩ t')
    (hran : RanTo config ⟨body, f.plain, .outermost⟩ t frames final r)
    (hapart : Apart config 0 frames.length ⟨body, f.plain, .outermost⟩ t ⟨body, f.recursive, .outermost⟩ t')
    (hfits : ∀ u, t.Settled u → t'.Settled u → f.Fits u) (hfinal : final.cont.tag = .terminal)
    (hnumber : final.expr.tag = .number) :
    (∃ frames' env r', frames'.length ≤ frames.length ∧ (∀ F ∈ frames', F.input.isHalted = false) ∧
      RanTo config ⟨body, f.recursive, .outermost⟩ t' frames' ⟨final.expr, env, .terminal⟩ r') ∨
    Parts config r f ⟨body, f.recursive, .outermost⟩ t' frames := by
  -- All that both runs take in is in one store.
  have hinjective := hapart
  have hsteps : after (steps config frames.length (Pursuit.on ⟨body, f.plain, []⟩ .outermost)) t = r :=
    (eq_ok_iff.1 hran.ran.steps_eq).2
  have hgrows := hran.grows hleft.reachable hleft.held
  obtain ⟨hgrows', -⟩ := grows_after_steps config frames.length hright.reachable hright.held
  have hr := hgrows.reachable hleft.reachable
  have hr' := hgrows'.reachable hright.reachable
  unfold Apart at hinjective
  rw [show after (steps config frames.length ⟨body, f.plain, .outermost⟩) t = r from hsteps] at hinjective
  obtain ⟨u, hu, hu'⟩ := exists_common hinjective hr hr' Set.subset_union_left Set.subset_union_right
  have hsettled : t.Settled u := ⟨hgrows.extends_.trans hu,
    faithful_of_injOn hinjective hleft.reachable (hgrows.content_subset.trans Set.subset_union_left)⟩
  have hsettled' : t'.Settled u := ⟨hgrows'.extends_.trans hu',
    faithful_of_injOn hinjective hright.reachable (hgrows'.content_subset.trans Set.subset_union_right)⟩
  have hplain : t.Holds f.plain := (State.held_iff.1 hleft.held).2.1
  have hcorresponds : Corresponds u f ⟨body, f.plain, []⟩ ⟨body, f.recursive, []⟩ := ⟨.code body, .forked, .nil⟩
  have hunderway : Underway config
      (r.content ∪ (after (steps config frames.length ⟨body, f.recursive, .outermost⟩) t').content) u frames.length
      ⟨body, f.plain, []⟩ t :=
    ⟨hleft, by rw [hsteps]; exact Set.subset_union_left, by rw [hsteps]; exact hu⟩
  exact hcorresponds.completes hinjective (hfits u hsettled hsettled') hu (hgrows.holds hplain) hunderway
    ⟨hright, Set.subset_union_right, hu'⟩ hran hfinal hnumber

/-! ## Up to the value -/

section
variable (hs : Reachable s) (hp : s.IsBind false p x e body) (hq : s.IsBind true q x e body) (hx : x.tag = .symbol)
  (hpHeld : s.Holds p) (hqHeld : s.Holds q) (henv : s.Holds env)
include hs hp hq hx hpHeld hqHeld henv

/-- Both runs come to the evaluation of what the symbol is bound to. -/
theorem bindings_open : ∃ F F' t t',
    InStep config 0 ⟨p, env, .outermost⟩ s ⟨q, env, .outermost⟩ s [F] [F']
      ((bindNode false x body env).onto .outermost) ((bindNode true x body env).onto .outermost) ⟨e, env, []⟩ t t' ∧
    t.Stacked .outermost [bindNode false x body env] ∧ t'.Stacked .outermost [bindNode true x body env] := by
  have houtermost := holds_outermost s
  have hleft : Pending .outermost ⟨p, env, []⟩ s := ⟨hs, State.held_iff.2 ⟨hpHeld, henv, houtermost⟩, trivial⟩
  have hright : Pending .outermost ⟨q, env, []⟩ s := ⟨hs, State.held_iff.2 ⟨hqHeld, henv, houtermost⟩, trivial⟩
  obtain ⟨F, t, hemitted, hran, hpending⟩ := hleft.binds config rfl hp hx
  obtain ⟨F', t', hemitted', hran', hpending'⟩ := hright.binds config rfl hq hx
  exact ⟨F, F', t, t', ⟨hran, hran', ⟨rfl, by simp [hemitted, hemitted']⟩, hpending.above, hpending'.above⟩,
    hpending.stacked, hpending'.stacked⟩

variable (hran : RanTo config ⟨p, env, .outermost⟩ s frames final r) (hfinal : final.cont.tag = .terminal)
  (hapart : Apart config 0 frames.length ⟨p, env, .outermost⟩ s ⟨q, env, .outermost⟩ s)
include hran hfinal hapart

/-- If the first run is completed, both runs hand one value to the bindings. -/
theorem bindings_value : ∃ n before before' pursuit t t' v env', 0 < n ∧ before.length + n = frames.length ∧
    InStep config 0 ⟨p, env, .outermost⟩ s ⟨q, env, .outermost⟩ s before before'
      ((bindNode false x body env).onto .outermost) ((bindNode true x body env).onto .outermost) pursuit t t' ∧
    Apart config 0 n (pursuit.on ((bindNode false x body env).onto .outermost)) t
      (pursuit.on ((bindNode true x body env).onto .outermost)) t' ∧
    t.Stacked .outermost [bindNode false x body env] ∧ t'.Stacked .outermost [bindNode true x body env] ∧
    (middle config (pursuit.on ((bindNode false x body env).onto .outermost)) t).1 =
      ⟨⟨v, env', (bindNode false x body env).onto .outermost⟩, true⟩ ∧
    (middle config (pursuit.on ((bindNode true x body env).onto .outermost)) t').1 =
      ⟨⟨v, env', (bindNode true x body env).onto .outermost⟩, true⟩ := by
  have hheld : State.Held ⟨p, env, .outermost⟩ s := State.held_iff.2 ⟨hpHeld, henv, holds_outermost s⟩
  have hhalted : final.isHalted = true := by rw [State.isHalted, hfinal]; rfl
  obtain ⟨F, F', t, t', hopen, hstacked, hstacked'⟩ := bindings_open hs hp hq hx hpHeld hqHeld henv
  obtain ⟨others, hframes, -⟩ := hran.rest hs hheld hhalted hopen.left (Waiting.not_halted _)
  have hlength : frames.length = 1 + others.length := by rw [hframes, List.length_append, List.length_singleton]
  have hlater : Apart config 0 others.length _ t _ t' := hapart.later hopen.left hopen.right hlength.symm rfl
  rcases hopen.stays_or_departs (Waiting.not_halted _) (Waiting.not_halted _) hlater with
    ⟨more, more', pursuit, m, m', hmore, hstays⟩ |
      ⟨more, more', pursuit, m, m', hmore, hgrows, hgrows', hreached, hrest, hdeparts⟩
  · -- The first run has come to rest in so many frames.
    have hsame := hran.final_eq hs hheld hhalted hstays.left (by rw [List.length_append, hmore, hlength]; rfl)
    have hmoving : (pursuit.on ((bindNode false x body env).onto .outermost)).isHalted = false :=
      stackOn_not_halted (Waiting.not_halted _) _
    rw [hsame, hhalted] at hmoving
    cases hmoving
  · cases hdeparts with
    | returns v env' hvalue hvalue' =>
      refine ⟨_, _, _, pursuit, m, m', v, env', Nat.sub_pos_of_lt hmore, ?_, hreached, hrest, hstacked.mono hgrows,
        hstacked'.mono hgrows', hvalue, hvalue'⟩
      rw [List.length_append, List.length_singleton, hlength]
      omega
    | stops F F' r r' env' code hstep hstep' hF hF' hemitted =>
      have hfailed := hran.halts_once hs hheld hhalted (hreached.meets hstep hstep' hF hF' hemitted).left rfl
      rw [hfailed] at hfinal
      cases hfinal
    | raises fault r r' hstep hstep' =>
      have hsteps : steps config 1 (pursuit.on ((bindNode false x body env).onto .outermost)) m = .error fault r :=
        EStateM.bind_of_error hstep _
      obtain ⟨others, m', hok⟩ := (hran.rests hs hheld hhalted _).1
      rw [hreached.left.raises hsteps] at hok
      cases hok

end

/-! ## The whole run -/

/-- The run of a form of bindings and that of its recursive kind bind one value, after as many frames, and tell the two
kinds apart later. -/
def PartLater (config : Config) (r : Store) (x body env : Pointer) (st' : State) (s' : Store) (frames : List Frame) :
    Prop :=
  ∃ before F after v frames' t', frames = before ++ F :: after ∧
    Hands F v ((bindNode false x body env).onto .outermost) ∧ frames'.length = before.length + 1 ∧
    RanTo config st' s' frames' ⟨body, Fork.recursive ⟨x, v, env⟩, .outermost⟩ t' ∧
    Parts config r ⟨x, v, env⟩ ⟨body, Fork.recursive ⟨x, v, env⟩, .outermost⟩ t' after

/-- If the run of a form of bindings comes to a number, the run of its recursive kind comes to it in as many steps at
most, or the two runs part. -/
theorem bindings_complete (hs : Reachable s) (hp : s.IsBind false p x e body) (hq : s.IsBind true q x e body)
    (hx : x.tag = .symbol) (hpHeld : s.Holds p) (hqHeld : s.Holds q) (henv : s.Holds env)
    (hran : RanTo config ⟨p, env, .outermost⟩ s frames final r) (hfinal : final.cont.tag = .terminal)
    (hapart : Apart config 0 frames.length ⟨p, env, .outermost⟩ s ⟨q, env, .outermost⟩ s)
    (hnumber : final.expr.tag = .number) :
    (∃ frames' env' r', frames'.length ≤ frames.length ∧ (∀ F ∈ frames', F.input.isHalted = false) ∧
      RanTo config ⟨q, env, .outermost⟩ s frames' ⟨final.expr, env', .terminal⟩ r') ∨
    PartLater config r x body env ⟨q, env, .outermost⟩ s frames := by
  have hheld : State.Held ⟨p, env, .outermost⟩ s := State.held_iff.2 ⟨hpHeld, henv, holds_outermost s⟩
  have hheld' : State.Held ⟨q, env, .outermost⟩ s := State.held_iff.2 ⟨hqHeld, henv, holds_outermost s⟩
  have hhalted : final.isHalted = true := by rw [State.isHalted, hfinal]; rfl
  obtain ⟨n, before, before', pursuit, t, t', v, env', hpos, hlength, hreached, hrest, hstacked, hstacked', hvalue,
    hvalue'⟩ := bindings_value hs hp hq hx hpHeld hqHeld henv hran hfinal hapart
  -- Both runs bind the value, and go on to the body.
  have hpending := hreached.abreast.left
  have hpending' := hreached.abreast.right
  obtain ⟨hfaithful, hfaithful'⟩ :=
    hrest.faithful hpending.reachable hpending.held hpending'.reachable hpending'.held
  obtain ⟨F, m, hbinds, hhands, hbody, hbound⟩ := hpending.bound hfaithful hstacked hvalue
  obtain ⟨F', m', hbinds', -, hbody', hbound'⟩ := hpending'.bound hfaithful' hstacked' hvalue'
  obtain ⟨others, hframes, hothers⟩ := hran.rest hs hheld hhalted (hreached.left.trans hbinds) rfl
  rw [List.append_assoc] at hframes
  have hn : [F].length + others.length = n := by
    have hall := congrArg List.length hframes
    simp only [List.length_append, List.length_cons, List.length_nil] at hall ⊢
    omega
  have hfork : nodePointer (bindEnv false) [x, v, env] = Fork.plain ⟨x, v, env⟩ := rfl
  have hfork' : nodePointer (bindEnv true) [x, v, env] = Fork.recursive ⟨x, v, env⟩ := rfl
  rw [hfork] at hbinds hbody hothers
  rw [hfork'] at hbinds' hbody'
  have hlater := hrest.later hbinds hbinds' hn rfl
  have hfits : ∀ u, m.Settled u → m'.Settled u → Fork.Fits ⟨x, v, env⟩ u := fun u hu hu' =>
    ⟨hbound u hu, hbound' u hu'⟩
  have hreaches := hreached.right.trans hbinds'
  have hmatched := hreached.matched.length
  rcases Fork.completes hbody hbody' hothers hlater hfits hfinal hnumber with
    ⟨others', last, r', hmore, hmoves, hran'⟩ | hparts
  · refine .inl ⟨_, last, r', ?_, List.forall_mem_append.2 ⟨hreaches.moving hs hheld' rfl, hmoves⟩,
      hreaches.trans hran'⟩
    rw [hframes]
    simp only [List.length_append, List.length_cons, List.length_nil] at hmatched ⊢
    omega
  · refine .inr ⟨before, F, others, v, _, m', hframes, hhands, ?_, hreaches, hparts⟩
    rw [List.length_append, hmatched]
    rfl

/-! ## Runs that do not part -/

/-- A frame that hands a value to a continuation hands what its expression is worth to the continuation that it began
with. -/
theorem Ran.handing {st : State} (hran : Ran config st s frames r) (hs : Reachable s) (hst : st.Held s) :
    ∀ F ∈ frames, F.returned = true → F.intermediate.cont = F.input.cont ∧
      ∃ m : Store, m.Grows r ∧ F.input.Held m ∧
        (EvalPhase.look config.lookupDepth F.input.expr F.input.env m).1 = .value F.intermediate.expr := by
  induction hran with
  | nil => exact List.forall_mem_nil _
  | @cons st s r m F frames hstep hrest ih =>
    obtain ⟨hm, hheld⟩ := reachable_step hs hst hstep
    have hgrows : s.Grows r := RanTo.grows ⟨.cons hstep hrest, rfl⟩ hs hst
    obtain ⟨-, hfollows⟩ := step_ok (reachable_sound hs) hst hstep
    refine List.forall_mem_cons.2 ⟨fun hreturned => ?_, ih hm hheld⟩
    rw [hfollows.intermediate, hfollows.input]
    rw [hfollows.returned] at hreturned
    unfold middle EvalPhase.reduct at hreturned ⊢
    split at hreturned
    · cases hreturned
    · rename_i hmoving
      rw [if_neg hmoving]
      rw [EvalPhase.evaluate_eq] at hreturned ⊢
      refine ⟨?_, s, hgrows, hst, ?_⟩ <;> revert hreturned <;>
        cases (EvalPhase.look config.lookupDepth st.expr st.env s).1 with
        | value v => exact fun _ => rfl
        | turn turn => exact nofun

/-- If the first run compares nothing, and the second one does not fail, they part only where a lookup strays. -/
theorem PartLater.strays {st' final' : State} {r' : Store} (h : PartLater config r x body env st' s' frames)
    (hran : Ran config ⟨p, env, .outermost⟩ s frames r) (hs : Reachable s) (hst : State.Held ⟨p, env, .outermost⟩ s)
    (hcompares : ∀ F ∈ frames, F.input.cont.tag ≠ .binary2) (hran' : RanTo config st' s' frames' final' r')
    (hs' : Reachable s') (hst' : st'.Held s') (hfinal' : final'.cont.tag = .terminal) :
    ∃ F ∈ frames, ∃ v, Hands F v ((bindNode false x body env).onto .outermost) ∧ ∃ G ∈ frames,
      r.expression G.input.expr = .variable ∧
        Fork.Strays ⟨x, v, env⟩ r config.lookupDepth G.input.expr G.input.env := by
  have hhanding := hran.handing hs hst
  have hhalted' : final'.isHalted = true := by rw [State.isHalted, hfinal']; rfl
  obtain ⟨before, F, after, v, others, t', rfl, hhands, -, hbound, hparts⟩ := h
  refine ⟨F, by simp, v, hhands, ?_⟩
  cases hparts with
  | @strays passed others rest G _ _ hafter _ _ hvariable _ hstrays _ =>
    exact ⟨G, by simp [hafter], hvariable, hstrays⟩
  | exceeds _ hexceeds =>
    have hsame := (hbound.trans hexceeds).halts_once hs' hst' rfl hran' hhalted'
    rw [← hsame] at hfinal'
    cases hfinal'
  | @compares passed _ rest G _ _ _ _ _ _ hafter _ _ hcompared =>
    have hG : G ∈ before ++ F :: after := by simp [hafter]
    have htag := hcompared.tag
    rw [(hhanding G hG hcompared.returned).1] at htag
    exact absurd htag (hcompares G hG)

end FieldLisp.Machine
