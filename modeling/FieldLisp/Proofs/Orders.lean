import FieldLisp.Proofs.Histories
import FieldLisp.Proofs.Machine.Agreement
import FieldLisp.Proofs.Store.Distinct

/-!
# Content alone decides

What a store answers depends on what is in it, not on the way it came in nor on what else is there:

* `Store.transcript`: what operations were answered;
* `Store.content_decides`: an evaluation is the same on all stores that hold it, and operations have the
  same answers in any order and leave stores that are alike.
-/

namespace FieldLisp.Store

variable {s t : Store} {p : Pointer}

/-! ## Operations in another order -/

/-- What operations were answered, one after the other. -/
def transcript : List Operation → Store → List (Operation × Except Fault Product)
  | [], _ => []
  | operation :: operations, s =>
    (operation, answer operation.perform s) :: transcript operations (after operation.perform s)

theorem exists_store_of_mem_transcript {operations : List Operation} {operation : Operation}
    {a : Except Fault Product} (hs : Reachable s)
    (hcanonical : ∀ operation ∈ operations, operation.Canonical)
    (h : (operation, a) ∈ transcript operations s) :
    operation.Canonical ∧ ∃ t, Reachable t ∧ a = answer operation.perform t ∧
      (after operation.perform t).Builds (afterAll operations s) := by
  induction operations generalizing s with
  | nil => cases h
  | cons first operations ih =>
    obtain ⟨hfirst, hrest⟩ := List.forall_mem_cons.1 hcanonical
    have hreachable := (builds_perform hs hfirst).reachable hs
    rcases List.mem_cons.1 h with hsame | h
    · obtain ⟨rfl, rfl⟩ := Prod.mk.inj hsame
      exact ⟨hfirst, s, hs, rfl, builds_afterAll hreachable hrest⟩
    · exact ih hreachable hrest h

theorem exists_mem_transcript {operations : List Operation} {operation : Operation}
    (h : operation ∈ operations) (s : Store) : ∃ a, (operation, a) ∈ transcript operations s := by
  induction operations generalizing s with
  | nil => cases h
  | cons first operations ih =>
    rcases List.mem_cons.1 h with rfl | h
    · exact ⟨_, List.mem_cons_self⟩
    · obtain ⟨a, ha⟩ := ih h (after first.perform s)
      exact ⟨a, List.mem_cons_of_mem _ ha⟩

section
variable {known : Set (List Int)} (hinjective : Set.InjOn Sponge.hash known)
include hinjective

/-- Two stores answer an operation alike, if neither misses an entry; and the second one takes in
nothing that the first one does not have in the end. -/
theorem perform_agrees {operation : Operation} (h : operation.Canonical) (hs : Reachable s)
    (ht : Reachable t) (hs' : (after operation.perform s).content ⊆ known)
    (ht' : (after operation.perform t).content ⊆ known)
    (hmisses : ¬Misses (answer operation.perform s))
    (hmisses' : ¬Misses (answer operation.perform t)) :
    answer operation.perform s = answer operation.perform t ∧
      (after operation.perform t).content ⊆ t.content ∪ (after operation.perform s).content := by
  obtain ⟨P, hrun, hP⟩ := operation.programmed
  rw [← hrun] at hs' ht' hmisses hmisses' ⊢
  exact Program.agree hinjective (hP h) hs ht hs' (.inl ht') hmisses hmisses'

/-- Operations take in nothing that is not there where all of them were performed. -/
theorem content_afterAll {operations operations' : List Operation} {s₀ : Store} (hs : Reachable s)
    (hs₀ : Reachable s₀) (hcanonical : ∀ operation ∈ operations', operation.Canonical)
    (hsubset : operations ⊆ operations') (hknown : (afterAll operations s).content ⊆ known)
    (hknown' : (afterAll operations' s₀).content ⊆ known)
    (hmisses : ∀ entry ∈ transcript operations s, ¬Misses entry.2)
    (hmisses' : ∀ entry ∈ transcript operations' s₀, ¬Misses entry.2)
    (hcontent : s.content ⊆ (afterAll operations' s₀).content) :
    (afterAll operations s).content ⊆ (afterAll operations' s₀).content := by
  induction operations generalizing s with
  | nil => exact hcontent
  | cons operation operations ih =>
    obtain ⟨hmem, hrest⟩ := List.cons_subset.1 hsubset
    obtain ⟨hmiss, hmisses⟩ := List.forall_mem_cons.1 hmisses
    have hreachable := (builds_perform hs (hcanonical operation hmem)).reachable hs
    have hlater : (after operation.perform s).Builds (afterAll (operation :: operations) s) :=
      builds_afterAll hreachable fun later hlater => hcanonical later (hrest hlater)
    obtain ⟨a, ha⟩ := exists_mem_transcript hmem s₀
    obtain ⟨-, t, ht, rfl, hthere⟩ := exists_store_of_mem_transcript hs₀ hcanonical ha
    have hsame := perform_agrees hinjective (hcanonical operation hmem) ht hs
      (hthere.retains.content_subset.trans hknown') (hlater.retains.content_subset.trans hknown)
      (hmisses' _ ha) hmiss
    refine ih hreachable hrest hknown hmisses ?_
    exact hsame.2.trans (Set.union_subset hcontent hthere.retains.content_subset)

end

/-- An evaluation of what two stores hold is the same, whatever else they hold. Operations that miss
nothing have the same answers in any order, and in what they leave the same is found. -/
theorem content_decides :
    (∀ {A B : Store} (config : Config) (maxSteps : Int) (cancelled : Bool) {expr : Pointer}
      {env : Option Pointer}, Reachable A → Reachable B → A.Holds expr → B.Holds expr →
      (∀ p ∈ env, A.Holds p) → (∀ p ∈ env, B.Holds p) →
      Set.InjOn Sponge.hash
        ((after (Machine.evaluate config maxSteps cancelled expr env) A).content ∪ B.content) →
      answer (Machine.evaluate config maxSteps cancelled expr env) A =
        answer (Machine.evaluate config maxSteps cancelled expr env) B) ∧
    ∀ {operations operations' : List Operation} (shared shared' : Bool),
      operations.Perm operations' → (∀ operation ∈ operations, operation.Canonical) →
      (∀ entry ∈ transcript operations (.empty shared), ¬Misses entry.2) →
      (∀ entry ∈ transcript operations' (.empty shared'), ¬Misses entry.2) →
      Set.InjOn Sponge.hash ((afterAll operations (.empty shared)).content ∪
        (afterAll operations' (.empty shared')).content) →
      (∀ operation a b, (operation, a) ∈ transcript operations (.empty shared) →
        (operation, b) ∈ transcript operations' (.empty shared') → a = b) ∧
      (afterAll operations (.empty shared)).size = (afterAll operations' (.empty shared')).size ∧
      ∀ p,
        (∀ arity, (afterAll operations (.empty shared)).fetch p arity =
          (afterAll operations' (.empty shared')).fetch p arity) ∧
        (afterAll operations (.empty shared)).resolve p =
          (afterAll operations' (.empty shared')).resolve p ∧
        (afterAll operations (.empty shared)).digest p =
          (afterAll operations' (.empty shared')).digest p ∧
        (afterAll operations (.empty shared)).render p =
          (afterAll operations' (.empty shared')).render p := by
  constructor
  · intro A B config maxSteps cancelled expr env hA hB hexprA hexprB henvA henvB hinjective
    exact Machine.evaluate_agrees config maxSteps cancelled hA hB hexprA hexprB henvA henvB hinjective
  · intro operations operations' shared shared' hperm hcanonical hmisses hmisses' hinjective
    have hcanonical' : ∀ operation ∈ operations', operation.Canonical :=
      fun operation hmem => hcanonical operation (hperm.mem_iff.2 hmem)
    have hempty := Reachable.empty
    have hA := reachable_afterAll shared hcanonical
    have hB := reachable_afterAll shared' hcanonical'
    have hforth := content_afterAll hinjective (hempty shared) (hempty shared') hcanonical' hperm.subset
      Set.subset_union_left Set.subset_union_right hmisses hmisses'
      (builds_afterAll (hempty shared') hcanonical').retains.content_subset
    have hback := content_afterAll hinjective (hempty shared') (hempty shared) hcanonical
      hperm.symm.subset Set.subset_union_right Set.subset_union_left hmisses' hmisses
      (builds_afterAll (hempty shared) hcanonical).retains.content_subset
    have halike := (retains_of_content hA hB (hinjective.mono Set.subset_union_right) hforth).alike
      (retains_of_content hB hA (hinjective.mono Set.subset_union_left) hback)
    refine ⟨fun operation a b ha hb => ?_, halike.size_eq, fun p => ⟨halike.fetch_eq p,
      halike.resolve_eq p, halike.digest_eq p, halike.render_eq p⟩⟩
    have hmiss := hmisses _ ha
    have hmiss' := hmisses' _ hb
    obtain ⟨hgiven, u, hu, rfl, hu'⟩ := exists_store_of_mem_transcript (hempty shared) hcanonical ha
    obtain ⟨-, v, hv, rfl, hv'⟩ := exists_store_of_mem_transcript (hempty shared') hcanonical' hb
    exact (perform_agrees hinjective hgiven hu hv
      (hu'.retains.content_subset.trans Set.subset_union_left)
      (hv'.retains.content_subset.trans Set.subset_union_right) hmiss hmiss').1

/-! ### Two operations of which neither needs the other -/

/-- A symbol and a commitment. -/
def inserts : List Operation := [.symbol "x", .hide 7 .nil]

theorem inserts_canonical : ∀ operation ∈ inserts, operation.Canonical := by
  have hnil : Pointer.nil.Canonical := Pointer.immediate_canonical .nil 0
  simp [inserts, Operation.Canonical, Operation.pointers, hnil]

/-- Each of them succeeds, and what it takes in does not collide. -/
theorem perform_inserts (hs : s.Sound) {operation : Operation} (h : operation ∈ inserts) : ∃ p t,
    operation.perform s = .ok (.pointer p) t ∧
      (s.content ⊆ {xs | xs ∈ samples} → t.content ⊆ {xs | xs ∈ samples}) := by
  simp only [inserts, List.mem_cons, List.not_mem_nil, or_false] at h
  rcases h with rfl | rfl
  · refine ⟨symbolPointer "x", s.recordName (symbolPointer "x") "x", rfl, fun hcontent => ?_⟩
    exact (content_recordName s "x").trans (Set.insert_subset (by simp [samples]) hcontent)
  · have hnumber : s.Holds (.number 7) :=
      s.holds_immediate (Pointer.immediate_canonical .number 7) rfl
    have hcheck : s.checkNode .commitment [.number 7, .nil] = .ok () :=
      checkNode_ok rfl (by simp [hnumber, holds_nil])
    have hintern : hide 7 .nil s = .ok (nodePointer .commitment [.number 7, .nil])
        (s.record .commitment [.number 7, .nil]).2 := by
      rw [hide, internNode_eq hs, hcheck]
    refine ⟨_, _, EStateM.map_eq_ok.2 ⟨_, hintern, rfl⟩, fun hcontent => ?_⟩
    exact (content_record_subset s _ _).trans (Set.insert_subset (by simp [samples]) hcontent)

theorem afterAll_inserts {operations : List Operation} (hoperations : operations ⊆ inserts)
    (hs : Reachable s) (hcontent : s.content ⊆ {xs | xs ∈ samples}) :
    (∀ entry ∈ transcript operations s, ¬Misses entry.2) ∧
      (afterAll operations s).content ⊆ {xs | xs ∈ samples} := by
  induction operations generalizing s with
  | nil => exact ⟨List.forall_mem_nil _, hcontent⟩
  | cons operation operations ih =>
    obtain ⟨hmem, hrest⟩ := List.cons_subset.1 hoperations
    obtain ⟨p, t, hperform, hstays⟩ := perform_inserts (reachable_sound hs) hmem
    obtain ⟨hanswer, hafter⟩ := eq_ok_iff.1 hperform
    have hreachable := (builds_perform hs (inserts_canonical operation hmem)).reachable hs
    rw [hafter] at hreachable
    obtain ⟨hmisses, hcontents⟩ := ih hrest hreachable (hstays hcontent)
    refine ⟨List.forall_mem_cons.2 ⟨?_, ?_⟩, ?_⟩
    · rintro ⟨q, hq⟩
      rw [hanswer] at hq
      cases hq
    · rwa [hafter]
    · change (afterAll operations (after operation.perform s)).content ⊆ _
      rwa [hafter]

/-- A number has the same evaluation in an empty store and in one that has the two in it, which they
come into in either order. -/
theorem content_decides_inserts :
    answer (Machine.evaluate .standard 10 false (.number 5) none) (.empty false) =
      answer (Machine.evaluate .standard 10 false (.number 5) none)
        (afterAll inserts (.empty true)) ∧
    (afterAll inserts (.empty false)).size = (afterAll inserts.reverse (.empty true)).size ∧
    (afterAll inserts (.empty false)).render (symbolPointer "x") =
      (afterAll inserts.reverse (.empty true)).render (symbolPointer "x") := by
  have hinserts (shared : Bool) := afterAll_inserts (List.Subset.refl inserts) (.empty shared)
    (content_empty_subset shared)
  have hreverse (shared : Bool) := afterAll_inserts (List.reverse_subset.2 (List.Subset.refl inserts))
    (.empty shared) (content_empty_subset shared)
  have hnumber (s : Store) : s.Holds (.number 5) :=
    s.holds_immediate (Pointer.immediate_canonical .number 5) rfl
  obtain ⟨E, hE⟩ := Machine.evaluate_number .standard (by decide : (0 : Int) ≤ 10)
    (empty_sound false) 5
  constructor
  · refine content_decides.1 .standard 10 false (.empty false) (reachable_afterAll true inserts_canonical)
      (hnumber _) (hnumber _) nofun nofun (injOn_samples.mono ?_)
    rw [(eq_ok_iff.1 hE).2]
    exact Set.union_subset (content_empty_subset false) (hinserts true).2
  · obtain ⟨-, hsize, hsame⟩ := content_decides.2 false true (List.reverse_perm inserts).symm
      inserts_canonical (hinserts false).1 (hreverse true).1
      (injOn_samples.mono (Set.union_subset (hinserts false).2 (hreverse true).2))
    exact ⟨hsize, (hsame _).2.2.2⟩

end FieldLisp.Store
