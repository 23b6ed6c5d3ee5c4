import FieldLisp.Proofs.Store.Content

/-!
# Written forms in two stores

What is written for a pointer depends on what stands below it only: neither on what else is in the store
nor on the bound of the recursion, which is taken from the size of the store:

* `Store.Twins.renderWithin_eq`: two stores that know a pointer write the same for it, with any bounds
  that are large enough;
* `Store.renderWithin_agrees`: so do two stores of which neither misses an entry;
* `Store.Alike`: two stores with the same entries cannot be told apart.
-/

namespace FieldLisp.Store

open Except (bind_of_ok)

variable {s t : Store} {p : Pointer}

/-- Two stores that have the same entries for the pointers that are in both, with levels in each. -/
structure Twins (s t : Store) (level level' : Pointer → ℕ) : Prop where
  sound : s.Sound
  sound' : t.Sound
  leveled : s.Leveled level
  leveled' : t.Leveled level'
  node : ∀ {p : Pointer} {cs ds : List Pointer}, s.nodes[p]? = some cs → t.nodes[p]? = some ds → cs = ds
  name : ∀ {p : Pointer} {name name' : String}, s.names[p]? = some name → t.names[p]? = some name' →
    name = name'

namespace Twins

variable {level level' : Pointer → ℕ} (h : s.Twins t level level')
include h

/-- A node has the same children in both stores, below it in both. -/
theorem exists_fetch {n : ℕ} (hn : p.tag.arity? = some n) (hp : s.Holds p) (hp' : t.Holds p) :
    ∃ cs, s.fetch p none = .ok cs ∧ t.fetch p none = .ok cs ∧ cs.length = n ∧
      ∀ c ∈ cs, (s.Holds c ∧ level c < level p) ∧ t.Holds c ∧ level' c < level' p := by
  obtain ⟨cs, hfetch, hcs, hlength, hheld⟩ := Store.exists_fetch h.sound hn hp
  obtain ⟨ds, hfetch', hds, -, hheld'⟩ := Store.exists_fetch h.sound' hn hp'
  obtain rfl := h.node hcs hds
  refine ⟨cs, hfetch, hfetch', hlength, fun c hc => ?_⟩
  exact ⟨⟨hheld c hc, h.leveled.below hcs c hc⟩, hheld' c hc, h.leveled'.below hds c hc⟩

theorem nameOf_eq (htag : p.tag = .symbol) (hp : s.Holds p) (hp' : t.Holds p) :
    s.nameOf p = t.nameOf p := by
  obtain ⟨name, hname⟩ := exists_name h.sound htag hp
  obtain ⟨name', hname'⟩ := exists_name h.sound' htag hp'
  have entry {u : Store} {text : String} (hu : u.nameOf p = .ok text) : u.names[p]? = some text := by
    unfold nameOf at hu
    split at hu
    · rename_i hfound
      cases hu
      exact hfound
    · cases hu
  rw [hname, hname', h.name (entry hname) (entry hname')]

theorem renderWithin_eq (fuel : ℕ) :
    (∀ fuel' p, s.Holds p → t.Holds p → 3 * level p + 1 ≤ fuel → 3 * level' p + 1 ≤ fuel' →
      s.renderWithin fuel p = t.renderWithin fuel' p) ∧
    (∀ fuel' p, s.Holds p → t.Holds p → 3 * level p + (if p.tag = .cons then 0 else 2) ≤ fuel →
      3 * level' p + (if p.tag = .cons then 0 else 2) ≤ fuel' → 0 < fuel → 0 < fuel' →
      s.renderItems fuel p = t.renderItems fuel' p) ∧
    ∀ fuel' p, s.Holds p → t.Holds p → 3 * level p ≤ fuel → 3 * level' p ≤ fuel' → 0 < fuel →
      0 < fuel' → s.renderBindings fuel p = t.renderBindings fuel' p := by
  induction fuel with
  | zero =>
    exact ⟨fun _ _ _ _ hfuel => absurd hfuel (by omega),
      fun _ _ _ _ _ _ hfuel => absurd hfuel (lt_irrefl 0),
      fun _ _ _ _ _ _ hfuel => absurd hfuel (lt_irrefl 0)⟩
  | succ fuel ih =>
    obtain ⟨within, items, bindings⟩ := ih
    refine ⟨fun fuel' p hp hp' hfuel hfuel' => ?_, fun fuel' p hp hp' hfuel hfuel' _ hpositive => ?_,
      fun fuel' p hp hp' hfuel hfuel' _ hpositive => ?_⟩
    · obtain ⟨fuel', rfl⟩ := Nat.exists_eq_add_one_of_ne_zero (by omega : fuel' ≠ 0)
      unfold renderWithin
      cases htag : p.tag <;> dsimp only
      case symbol => exact h.nameOf_eq htag hp hp'
      case cons =>
        have hlow := h.leveled.positive h.sound (by rw [htag]; rfl) hp
        have hlow' := h.leveled'.positive h.sound' (by rw [htag]; rfl) hp'
        rw [items fuel' p hp hp' (by rw [if_pos htag]; omega) (by rw [if_pos htag]; omega)
          (by omega) (by omega)]
      case function =>
        obtain ⟨cs, hfetch, hfetch', hlength, hbelow⟩ := h.exists_fetch (by rw [htag]; rfl) hp hp'
        obtain ⟨parameter, body, env, rfl⟩ := List.length_eq_three.1 hlength
        have hchild (c : Pointer) (hc : c ∈ [parameter, body, env]) :
            s.renderWithin fuel c = t.renderWithin fuel' c := by
          obtain ⟨⟨hc, hlow⟩, hc', hlow'⟩ := hbelow c hc
          exact within fuel' c hc hc' (by omega) (by omega)
        rw [bind_of_ok hfetch, bind_of_ok hfetch']
        dsimp only
        rw [hchild parameter (by simp), hchild body (by simp)]
      case thunk =>
        obtain ⟨cs, hfetch, hfetch', hlength, hbelow⟩ := h.exists_fetch (by rw [htag]; rfl) hp hp'
        obtain ⟨value, rest, rfl⟩ := List.length_eq_two.1 hlength
        obtain ⟨⟨hc, hlow⟩, hc', hlow'⟩ := hbelow value (by simp)
        rw [bind_of_ok hfetch, bind_of_ok hfetch']
        dsimp only
        rw [within fuel' value hc hc' (by omega) (by omega)]
      case env | recEnv =>
        have hlow := h.leveled.positive h.sound (by rw [htag]; rfl) hp
        have hlow' := h.leveled'.positive h.sound' (by rw [htag]; rfl) hp'
        rw [bindings fuel' p hp hp' (by omega) (by omega) (by omega) (by omega)]
    · obtain ⟨fuel', rfl⟩ := Nat.exists_eq_add_one_of_ne_zero (by omega : fuel' ≠ 0)
      unfold renderItems
      by_cases htag : p.tag = .cons
      · obtain ⟨cs, hfetch, hfetch', hlength, hbelow⟩ := h.exists_fetch (by rw [htag]; rfl) hp hp'
        obtain ⟨car, cdr, rfl⟩ := List.length_eq_two.1 hlength
        obtain ⟨⟨hcar, hlow⟩, hcar', hlow'⟩ := hbelow car (by simp)
        obtain ⟨⟨hcdr, hlast⟩, hcdr', hlast'⟩ := hbelow cdr (by simp)
        rw [if_pos htag] at hfuel hfuel'
        simp only [htag]
        rw [bind_of_ok hfetch, bind_of_ok hfetch']
        dsimp only
        rw [within fuel' car hcar hcar' (by omega) (by omega),
          items fuel' cdr hcdr hcdr' (by split <;> omega) (by split <;> omega) (by omega) (by omega)]
      · rw [if_neg htag] at hfuel hfuel'
        cases htag' : p.tag <;> dsimp only
        case cons => exact absurd htag' htag
        all_goals rw [within fuel' p hp hp' (by omega) (by omega)]
    · obtain ⟨fuel', rfl⟩ := Nat.exists_eq_add_one_of_ne_zero (by omega : fuel' ≠ 0)
      unfold renderBindings
      by_cases henv : p.tag.isEnv = true
      · obtain ⟨cs, hfetch, hfetch', hlength, hbelow⟩ :=
          h.exists_fetch (Tag.arity_of_isEnv henv) hp hp'
        obtain ⟨var, value, parent, rfl⟩ := List.length_eq_three.1 hlength
        have hchild (c : Pointer) (hc : c ∈ [var, value, parent]) :
            s.renderWithin fuel c = t.renderWithin fuel' c := by
          obtain ⟨⟨hc, hlow⟩, hc', hlow'⟩ := hbelow c hc
          exact within fuel' c hc hc' (by omega) (by omega)
        obtain ⟨⟨hparent, hlow⟩, hparent', hlow'⟩ := hbelow parent (by simp)
        rw [if_pos henv, if_pos henv, bind_of_ok hfetch, bind_of_ok hfetch']
        dsimp only
        rw [hchild var (by simp), hchild value (by simp),
          bindings fuel' parent hparent hparent' (by omega) (by omega) (by omega) (by omega)]
      · rw [if_neg henv, if_neg henv]

end Twins

/-! ## Pointers that a store lacks -/

theorem describe_of_canonical (hp : p.Canonical) (htag : p.tag ≠ .error) :
    ∃ text, p.describe = .ok text := by
  obtain ⟨value, hvalue⟩ := exists_payload hp
  unfold Pointer.describe
  rw [bind_of_ok hvalue]
  cases h : p.tag
  case error => exact absurd h htag
  all_goals exact ⟨_, rfl⟩

/-- The fault of a canonical pointer that a store lacks names the pointer. -/
theorem reported_dangling (hp : p.Canonical) (htag : p.tag ≠ .error) :
    (Fault.dangling p).reported = .dangling p := by
  obtain ⟨text, htext⟩ := describe_of_canonical hp htag
  unfold Fault.reported Fault.subject?
  rw [Option.map_some, htext]

theorem not_error_of_not_contains (h : s.contains p = false) : p.tag ≠ .error := by
  intro htag
  rw [contains, htag] at h
  cases h

theorem fetch_of_not_contains (hp : p.Canonical) (h : s.contains p = false) {n : ℕ}
    (hn : p.tag.arity? = some n) : s.fetch p none = .error (.dangling p) := by
  have hnode : s.nodes[p]? = none := by
    rw [contains, Bool.or_eq_false_iff, Bool.or_eq_false_iff] at h
    rw [← Option.not_isSome_iff_eq_none, ← Std.HashMap.contains_eq_isSome_getElem?, h.1.2]
    exact Bool.false_ne_true
  unfold fetch
  rw [hn, hnode, reported_dangling hp (not_error_of_not_contains h)]
  rfl

theorem nameOf_of_not_contains (hp : p.Canonical) (h : s.contains p = false) :
    s.nameOf p = .error (.dangling p) := by
  have hname : s.names[p]? = none := by
    rw [contains, Bool.or_eq_false_iff] at h
    rw [← Option.not_isSome_iff_eq_none, ← Std.HashMap.contains_eq_isSome_getElem?, h.2]
    exact Bool.false_ne_true
  unfold nameOf
  rw [hname, reported_dangling hp (not_error_of_not_contains h)]

/-- What is written for a pointer that the store lacks shows nothing below it, or it is missed. -/
theorem renderWithin_of_not_contains (hp : p.Canonical) (h : s.contains p = false) (fuel : ℕ) :
    s.renderWithin (fuel + 2) p = .error (.dangling p) ∨
      ∀ (u : Store) (fuel' : ℕ), u.renderWithin (fuel' + 2) p = s.renderWithin (fuel + 2) p := by
  unfold renderWithin
  cases htag : p.tag <;> dsimp only
  case symbol => exact .inl (nameOf_of_not_contains hp h)
  case cons =>
    unfold renderItems
    rw [htag]
    dsimp only
    rw [fetch_of_not_contains hp h (by rw [htag]; rfl)]
    exact .inl rfl
  case function | thunk =>
    rw [fetch_of_not_contains hp h (by rw [htag]; rfl)]
    exact .inl rfl
  case env | recEnv =>
    unfold renderBindings
    rw [if_pos (by rw [htag]; rfl), fetch_of_not_contains hp h (by rw [htag]; rfl)]
    exact .inl rfl
  all_goals exact .inr fun _ _ => rfl

/-- An entry is missed. -/
def Misses {α : Type} (x : Except Fault α) : Prop := ∃ q, x = .error (.dangling q)

/-- Without collisions two stores have the same entries for what is in both. -/
theorem exists_twins {known : Set (List Int)} (hinjective : Set.InjOn Sponge.hash known)
    (hs : Reachable s) (ht : Reachable t) (hsknown : s.content ⊆ known) (htknown : t.content ⊆ known) :
    ∃ level level', s.Twins t level level' := by
  obtain ⟨level, hlevel⟩ := reachable_leveled hs
  obtain ⟨level', hlevel'⟩ := reachable_leveled ht
  exact ⟨level, level', {
    sound := reachable_sound hs
    sound' := reachable_sound ht
    leveled := hlevel
    leveled' := hlevel'
    node := node_unique hinjective hs ht hsknown htknown
    name := name_unique hinjective hs ht hsknown htknown }⟩

/-- Two stores write the same for a pointer, with any bounds that are large enough, if neither misses an
entry. -/
theorem renderWithin_agrees {known : Set (List Int)} (hinjective : Set.InjOn Sponge.hash known)
    (hs : Reachable s) (ht : Reachable t) (hsknown : s.content ⊆ known) (htknown : t.content ⊆ known)
    (hp : p.Canonical) {fuel fuel' : ℕ} (hfuel : 3 * s.nodes.size + 3 ≤ fuel)
    (hfuel' : 3 * t.nodes.size + 3 ≤ fuel') (hmisses : ¬Misses (s.renderWithin fuel p))
    (hmisses' : ¬Misses (t.renderWithin fuel' p)) :
    s.renderWithin fuel p = t.renderWithin fuel' p := by
  obtain ⟨fuel, rfl⟩ := Nat.exists_eq_add_of_le' (by omega : 2 ≤ fuel)
  obtain ⟨fuel', rfl⟩ := Nat.exists_eq_add_of_le' (by omega : 2 ≤ fuel')
  cases hcontains : s.contains p with
  | false =>
    rcases renderWithin_of_not_contains hp hcontains fuel with h | h
    · exact absurd ⟨p, h⟩ hmisses
    · exact (h t fuel').symm
  | true =>
    cases hcontains' : t.contains p with
    | false =>
      rcases renderWithin_of_not_contains hp hcontains' fuel' with h | h
      · exact absurd ⟨p, h⟩ hmisses'
      · exact h s fuel
    | true =>
      obtain ⟨level, level', htwins⟩ := exists_twins hinjective hs ht hsknown htknown
      have hbounded := htwins.leveled.bounded p
      have hbounded' := htwins.leveled'.bounded p
      exact (htwins.renderWithin_eq (fuel + 2)).1 (fuel' + 2) p ⟨hp, hcontains⟩ ⟨hp, hcontains'⟩
        (by omega) (by omega)

/-! ## Stores with the same entries -/

/-- The same pointers lead to the same entries. -/
structure Alike (s t : Store) : Prop where
  nodes : ∀ p : Pointer, s.nodes[p]? = t.nodes[p]?
  interned : ∀ key : Tag × List Pointer, s.interned[key]? = t.interned[key]?
  names : ∀ p : Pointer, s.names[p]? = t.names[p]?

theorem eq_of_forall_some {α : Type} {x y : Option α} (h : ∀ a, x = some a → y = some a)
    (h' : ∀ a, y = some a → x = some a) : x = y := Option.ext fun a => ⟨h a, h' a⟩

theorem Retains.alike (h : s.Retains t) (h' : t.Retains s) : s.Alike t :=
  ⟨fun _ => eq_of_forall_some (fun _ => h.node) fun _ => h'.node,
    fun _ => eq_of_forall_some (fun _ => h.interned) fun _ => h'.interned,
    fun _ => eq_of_forall_some (fun _ => h.name) fun _ => h'.name⟩

namespace Alike

variable (h : s.Alike t)
include h

theorem nodes_size : s.nodes.size = t.nodes.size :=
  (Std.HashMap.Equiv.of_forall_getElem?_eq h.nodes).size_eq

theorem size_eq : s.size = t.size := by
  rw [size, size, h.nodes_size, (Std.HashMap.Equiv.of_forall_getElem?_eq h.names).size_eq]

theorem contains_eq (p : Pointer) : s.contains p = t.contains p := by
  simp only [contains, Std.HashMap.contains_eq_isSome_getElem?, h.nodes, h.names]

theorem fetch_eq (p : Pointer) (arity : Option Int) : s.fetch p arity = t.fetch p arity := by
  unfold fetch
  rw [h.nodes]

theorem nameOf_eq (p : Pointer) : s.nameOf p = t.nameOf p := by
  unfold nameOf
  rw [h.names]

theorem resolve_eq (p : Pointer) : s.resolve p = t.resolve p := by
  unfold resolve
  rw [h.nameOf_eq, h.fetch_eq]

theorem digest_eq (p : Pointer) : s.digest p = t.digest p := by
  unfold digest
  rw [h.contains_eq]

theorem renderWithin_eq (fuel : ℕ) : s.renderWithin fuel = t.renderWithin fuel ∧
    s.renderItems fuel = t.renderItems fuel ∧ s.renderBindings fuel = t.renderBindings fuel := by
  induction fuel with
  | zero =>
    refine ⟨funext fun p => ?_, funext fun p => ?_, funext fun p => ?_⟩
    · unfold renderWithin
      rfl
    · unfold renderItems
      rfl
    · unfold renderBindings
      rfl
  | succ fuel ih =>
    obtain ⟨hwithin, hitems, hbindings⟩ := ih
    refine ⟨funext fun p => ?_, funext fun p => ?_, funext fun p => ?_⟩
    · unfold renderWithin
      rw [hwithin, hitems, hbindings, h.nameOf_eq, h.fetch_eq]
    · unfold renderItems
      rw [hwithin, hitems, h.fetch_eq]
    · unfold renderBindings
      rw [hwithin, hbindings, h.fetch_eq]

theorem render_eq (p : Pointer) : s.render p = t.render p := by
  rw [render, render, h.nodes_size, (h.renderWithin_eq _).1]

end Alike

end FieldLisp.Store
