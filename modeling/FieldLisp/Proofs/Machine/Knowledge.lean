import FieldLisp.Proofs.Machine.Slots

/-!
# What is known of flags

One rule for each line of a program. A flag has a value, and it is sure where a condition holds; what
is asked of a value that may not be there is sure only where it is, and masked elsewhere:

* `Flag`: the value of a flag, and where it is sure;
* `Sees`: where a pointer is sure;
* `yields_both`: a conjunction is sure if its second part is sure where the first is set;
* `yields_tagIs`, `yields_selectPointer`, `yields_unhash2_if`: the other lines of a program.
-/

namespace FieldLisp

open StepModel

namespace MarkM

variable {c : Setting} {known known' : Prop} {v w : Bool} {x y : Marked Int} {W : MarkWorld}
  {β : Type} {post : β → MarkWorld → Prop}

/-- A flag has a value. It is sure if witnesses are honest, or a condition holds. -/
structure Flag (c : Setting) (known : Prop) (v : Bool) (x : Marked Int) : Prop where
  eq : x = .bit x.sure v
  sure : c.honest = true ∨ known → x.sure = true

/-- A pointer is sure if witnesses are honest, or a condition holds. -/
def Sees (c : Setting) (known : Prop) (p : MarkedPointer) : Prop :=
  c.honest = true ∨ known → p.sure = true

theorem Reliable.sees {s : Store} {p : MarkedPointer} (h : Reliable s p) : Sees c known p :=
  fun _ => h.sure

namespace Opened
variable {s : Store} {key : SlotKey} {i : ℕ} {p : MarkedPointer}

theorem get (h : Opened c s (c.gate && v) key i p) (hgate : c.gate = true) (hv : v = true) :
    Reliable s p := h.reliable (by rw [hgate, hv]; rfl)

theorem sees (h : Opened c s (c.gate && v) key i p) : Sees c (c.gate = true ∧ v = true) p
  | .inl hhonest => h.sure_of_honest hhonest
  | .inr ⟨hgate, hv⟩ => (h.get hgate hv).sure

end Opened

/-! ## Flags -/

theorem flag_bit (v : Bool) : Flag c True v (.bit true v) := ⟨rfl, fun _ => rfl⟩

namespace Flag

theorem mono (known' : Prop) (h : Flag c known v x) (hknown : known' → known) : Flag c known' v x :=
  ⟨h.eq, fun hk => h.sure (hk.imp_right hknown)⟩

theorem no (h : Flag c known v x) : Flag c known (!v) (no x) := by
  rw [h.eq, no_bit]
  exact ⟨rfl, h.sure⟩

theorem oneOf (hx : Flag c known v x) (hy : Flag c known' w y) (hvw : (v && w) = false) :
    Flag c (known ∧ known') (v || w) (oneOf [x, y]) := by
  rw [hx.eq, hy.eq, oneOf_pair hvw]
  refine ⟨rfl, fun hk => ?_⟩
  rw [Marked.bit_sure, hx.sure (hk.imp_right And.left), hy.sure (hk.imp_right And.right)]
  rfl

theorem admits (h : Flag c known v x) (hknown : c.gate = true → v = true → known) :
    c.Admits (some x) := by
  rw [h.eq]
  exact admits_bit (fun hgate hv => h.sure (.inr (hknown hgate hv))) fun hhonest =>
    h.sure (.inl hhonest)

theorem on (h : Flag c known v x) : c.on (some x) = (c.gate && v) := by
  rw [h.eq, on_bit]

end Flag

/-! ## Lines of a program -/

theorem yields_tagIs {p : MarkedPointer} {tag : Tag} {f : Marked Int → MarkM c β}
    (hp : Sees c known p)
    (h : ∀ x, Flag c known (p.value.tag == tag) x → (f x).Yields W post) :
    (tagIs p tag >>= f).Yields W post := by
  rw [tagIs_eq, pure_bind]
  refine h _ ⟨rfl, fun hk => ?_⟩
  rw [Marked.bit_sure, hp hk, Bool.true_or]

/-- Whether a pointer is a pair is known also where it is known to be none. -/
theorem yields_isCons {p : MarkedPointer} {f : Marked Int → MarkM c β}
    (hp : c.honest = true ∨ known → (p.sure || p.notPair) = true)
    (h : ∀ x, Flag c known (p.value.tag == .cons) x → (f x).Yields W post) :
    (tagIs p .cons >>= f).Yields W post := by
  rw [tagIs_eq, pure_bind]
  refine h _ ⟨rfl, fun hk => ?_⟩
  rw [Marked.bit_sure, beq_self_eq_true, Bool.and_true, hp hk]

theorem yields_tagIn {p : MarkedPointer} {tags : List Tag} {f : Marked Int → MarkM c β}
    (hne : tags ≠ []) (hascending : Tag.ascending tags = tags) (hnodup : tags.Nodup)
    (hcons : .cons ∉ tags) (hp : Sees c known p)
    (h : ∀ x, Flag c known (tags.contains p.value.tag) x → (f x).Yields W post) :
    (tagIn p tags >>= f).Yields W post := by
  rw [tagIn_eq hne hascending hnodup (.inr hcons), pure_bind]
  exact h _ ⟨rfl, hp⟩

theorem yields_pointerEq {p q : MarkedPointer} {f : Marked Int → MarkM c β} (hp : Sees c known p)
    (hq : q.sure = true) (h : ∀ x, Flag c known (p.value == q.value) x → (f x).Yields W post) :
    (pointerEq p q >>= f).Yields W post := by
  rw [pointerEq_eq, pure_bind]
  refine h _ ⟨rfl, fun hk => ?_⟩
  rw [Marked.bit_sure, hp hk, hq]
  rfl

theorem yields_both_cons {xs : List (Marked Int)} {f : Marked Int → MarkM c β}
    (hx : Flag c known v x) (hy : Flag c known' w y)
    (h : ∀ z, Flag c (known ∧ (v = true → known')) (v && w) z →
      (both z xs >>= f).Yields W post) : (both x (y :: xs) >>= f).Yields W post := by
  rw [hx.eq, hy.eq, both_cons]
  refine h _ ⟨rfl, fun hk => ?_⟩
  rw [Marked.bit_sure, hx.sure (hk.imp_right And.left)]
  cases v with
  | false => simp
  | true => simp [hy.sure (hk.imp_right fun hk => hk.2 rfl)]

/-- The second flag has to be sure only where the first is set. -/
theorem yields_both {f : Marked Int → MarkM c β} (hx : Flag c known v x) (hy : Flag c known' w y)
    (h : ∀ z, Flag c (known ∧ (v = true → known')) (v && w) z → (f z).Yields W post) :
    (both x [y] >>= f).Yields W post := by
  refine yields_both_cons hx hy fun z hz => ?_
  rw [both_nil, pure_bind]
  exact h z hz

theorem yields_select {a b : Marked Int} {f : Marked Int → MarkM c β} (hx : Flag c known v x)
    (h : ∀ r, (c.honest = true ∨ known → r = if v then a else b) → (f r).Yields W post) :
    (select x a b >>= f).Yields W post := by
  rw [hx.eq, select_bit fun hhonest => hx.sure (.inl hhonest), pure_bind]
  refine h _ fun hk => ?_
  rw [hx.sure hk, Marked.dim_true]

theorem yields_selectPointer {p q : MarkedPointer} {f : MarkedPointer → MarkM c β}
    (hx : Flag c known v x)
    (h : ∀ r, (c.honest = true ∨ known → r = if v then p else q) → (f r).Yields W post) :
    (selectPointer x p q >>= f).Yields W post := by
  rw [hx.eq, selectPointer_bit fun hhonest => hx.sure (.inl hhonest), pure_bind]
  refine h _ fun hk => ?_
  rw [hx.sure hk, MarkedPointer.dim_true]

/-- A choice between flags is a flag, sure if the chosen one is. -/
theorem yields_selectFlag {u : Bool} {b d : Marked Int} {known₁ known₂ : Prop}
    {f : Marked Int → MarkM c β} (hx : Flag c known v x) (hb : Flag c known₁ w b)
    (hd : Flag c known₂ u d)
    (h : ∀ r, Flag c (known ∧ (v = true → known₁) ∧ (v = false → known₂)) (if v then w else u) r →
      (f r).Yields W post) :
    (select x b d >>= f).Yields W post := by
  rw [hx.eq, hb.eq, hd.eq, select_bit fun hhonest => hx.sure (.inl hhonest), pure_bind]
  refine h _ ?_
  cases v with
  | true =>
    refine ⟨by simp, fun hk => ?_⟩
    rw [if_pos rfl, Marked.dim_bit, Marked.bit_sure, hx.sure (hk.imp_right And.left),
      hb.sure (hk.imp_right fun hk => hk.2.1 rfl)]
    rfl
  | false =>
    refine ⟨by simp, fun hk => ?_⟩
    rw [if_neg Bool.false_ne_true, Marked.dim_bit, Marked.bit_sure, hx.sure (hk.imp_right And.left),
      hd.sure (hk.imp_right fun hk => hk.2.2 rfl)]
    rfl

theorem yields_truth {f : MarkedPointer → MarkM c β} (hx : Flag c known v x)
    (h : ∀ r, (c.honest = true ∨ known →
      r = .certain (if v then Builtin.truthPointer else .nil)) → (f r).Yields W post) :
    (truth x >>= f).Yields W post := by
  unfold truth
  refine yields_selectPointer hx fun r hr => h r fun hk => ?_
  rw [hr hk]
  cases v <;> rfl

theorem yields_exclusive {f : Marked Int → MarkM c β} (hx : Flag c known v x)
    (hy : Flag c known' w y)
    (h : ∀ z, Flag c (known ∧ known') (v ^^ w) z → (f z).Yields W post) :
    (exclusive x y >>= f).Yields W post := by
  have hexclusive : (exclusive x y : MarkM c (Marked Int)) =
      pure (.bit (x.sure && y.sure) (v ^^ w)) := by
    rw [hx.eq, hy.eq]
    unfold exclusive
    rw [mul_bit, pure_bind]
    cases v <;> cases w <;> cases x.sure <;> cases y.sure <;> rfl
  rw [hexclusive, pure_bind]
  refine h _ ⟨rfl, fun hk => ?_⟩
  rw [Marked.bit_sure, hx.sure (hk.imp_right And.left), hy.sure (hk.imp_right And.right)]
  rfl

theorem yields_equal {b : Marked Int} {f : Marked Int → MarkM c β}
    (hx : c.honest = true ∨ known → (x.sure && b.sure) = true)
    (h : ∀ r, Flag c known (Field.reduce (x.value - b.value) == 0) r → (f r).Yields W post) :
    (equal x b >>= f).Yields W post :=
  h (.bit (x.sure && b.sure) (Field.reduce (x.value - b.value) == 0)) ⟨rfl, hx⟩

theorem yields_choose {a b : Step (Marked Int) MarkedPointer}
    {f : Step (Marked Int) MarkedPointer → MarkM c β} (hx : Flag c known v x)
    (h : ∀ r, (c.honest = true ∨ known → r = if v then a else b) → (f r).Yields W post) :
    (Step.choose x a b >>= f).Yields W post := by
  rw [hx.eq, choose_bit fun hhonest => hx.sure (.inl hhonest), pure_bind]
  refine h _ fun hk => ?_
  rw [hx.sure hk, Step.dim_true]

theorem yields_hash_if (tag : Tag) {number : Marked Int} {children : List MarkedPointer}
    {f : MarkedPointer → MarkM c β} (hsound : W.store.Sound) (hx : Flag c known v x)
    (hknown : c.gate = true → v = true → known)
    (hnode : c.gate = true → v = true → number.sure = true ∧ number.value = tag.value ∧
      tag.arity? = some children.length ∧ ∀ p ∈ children, Reliable W.store p)
    (h : ∀ p W', W'.store.Sound → W.store.Extends W'.store →
      (c.gate = true → v = true → Reliable W'.store p) → (f p).Yields W' post) :
    (StepModel.hash number children (some x) >>= f).Yields W post := by
  refine yields_bind.2 (yields_hash tag hsound (hx.admits hknown) ?_ ?_)
  · rw [hx.on, Bool.and_eq_true]
    exact fun hon => hnode hon.1 hon.2
  · rw [hx.on]
    exact fun p W' hsound' hext hp => h p W' hsound' hext fun hgate hv => hp (by rw [hgate, hv]; rfl)

theorem yields_hashTag_if {tag : Tag} {children : List MarkedPointer} {f : MarkedPointer → MarkM c β}
    (hsound : W.store.Sound) (harity : tag.arity? = some children.length) (hx : Flag c known v x)
    (hknown : c.gate = true → v = true → known)
    (hchildren : c.gate = true → v = true → ∀ p ∈ children, Reliable W.store p)
    (h : ∀ p W', W'.store.Sound → W.store.Extends W'.store →
      (c.gate = true → v = true → Reliable W'.store p) → (f p).Yields W' post) :
    (hashTag tag children (some x) >>= f).Yields W post :=
  yields_hash_if tag hsound hx hknown (fun hgate hv =>
    ⟨rfl, Field.reduce_eq_self tag.value_canonical, harity, hchildren hgate hv⟩) h

theorem yields_buildList_if {items : List MarkedPointer} {f : MarkedPointer → MarkM c β}
    (hsound : W.store.Sound) (hx : Flag c known v x) (hknown : c.gate = true → v = true → known)
    (hitems : c.gate = true → v = true → ∀ p ∈ items, Reliable W.store p)
    (h : ∀ p W', W'.store.Sound → W.store.Extends W'.store →
      (c.gate = true → v = true → Reliable W'.store p) → (f p).Yields W' post) :
    (buildList items (some x) >>= f).Yields W post := by
  refine yields_bind.2 (yields_buildList hsound (hx.admits hknown) ?_ ?_)
  · rw [hx.on, Bool.and_eq_true]
    exact fun hon => hitems hon.1 hon.2
  · rw [hx.on]
    exact fun p W' hsound' hext hp => h p W' hsound' hext fun hgate hv => hp (by rw [hgate, hv]; rfl)

theorem yields_unhash2_if {p : MarkedPointer} {f : MarkedPointer × MarkedPointer → MarkM c β}
    (hproper : c.Proper) (hsound : W.store.Sound) (hx : Flag c known v x)
    (hknown : c.gate = true → v = true → known)
    (hp : c.gate = true → v = true → Reliable W.store p ∧ p.value.tag.arity? = some 2)
    (h : ∀ a b W', W'.store = W.store → Opened c W.store (c.gate && v) (W.key 2) 0 a →
      Opened c W.store (c.gate && v) (W.key 2) 1 b → (f (a, b)).Yields W' post) :
    (unhash2 p (some x) >>= f).Yields W post := by
  refine yields_bind.2 (yields_unhash2 hproper hsound (hx.admits hknown) ?_ ?_)
  · rw [hx.on, Bool.and_eq_true]
    exact fun hon => hp hon.1 hon.2
  · rw [hx.on]
    exact fun a b W' hreads _ ha hb => h a b W' hreads.store ha hb

theorem yields_unhash3_if {p : MarkedPointer}
    {f : MarkedPointer × MarkedPointer × MarkedPointer → MarkM c β} (hproper : c.Proper)
    (hsound : W.store.Sound) (hx : Flag c known v x) (hknown : c.gate = true → v = true → known)
    (hp : c.gate = true → v = true → Reliable W.store p ∧ p.value.tag.arity? = some 3)
    (h : ∀ a b d W', W'.store = W.store → Opened c W.store (c.gate && v) (W.key 3) 0 a →
      Opened c W.store (c.gate && v) (W.key 3) 1 b → Opened c W.store (c.gate && v) (W.key 3) 2 d →
      (f (a, b, d)).Yields W' post) :
    (unhash3 p (some x) >>= f).Yields W post := by
  refine yields_bind.2 (yields_unhash3 hproper hsound (hx.admits hknown) ?_ ?_)
  · rw [hx.on, Bool.and_eq_true]
    exact fun hon => hp hon.1 hon.2
  · rw [hx.on]
    exact h

end MarkM

end FieldLisp
