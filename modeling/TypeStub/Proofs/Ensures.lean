import Mathlib.Data.List.Forall2

namespace TypeStub

section

variable {ε σ α β : Type} {inv : σ → Prop} {p : EStateM ε σ α} {Q : α → Prop}

-- A run that succeeds from a state with the invariant keeps it and gives such a result.
def Ensures (inv : σ → Prop) (p : EStateM ε σ α) (Q : α → Prop) : Prop :=
  ∀ ⦃s : σ⦄ ⦃a : α⦄ ⦃s' : σ⦄, inv s → p s = .ok a s' → Q a ∧ inv s'

theorem Ensures.mono {R : α → Prop} (h : Ensures inv p Q) (hw : ∀ a, Q a → R a) :
    Ensures inv p R := fun _ _ _ hs hp => ⟨hw _ (h hs hp).1, (h hs hp).2⟩

theorem Ensures.any : Ensures (fun _ => True) p fun _ => True :=
  fun _ _ _ _ _ => ⟨trivial, trivial⟩

theorem Ensures.pure {a : α} (h : Q a) : Ensures inv (Pure.pure a : EStateM ε σ α) Q := by
  intro s a' s' hs hp
  obtain ⟨rfl, rfl⟩ := (EStateM.Result.ok.injEq ..).mp hp
  exact ⟨h, hs⟩

theorem Ensures.throw {e : ε} : Ensures inv (throw e : EStateM ε σ α) Q := by
  intro s a s' _ hp
  exact absurd hp (show EStateM.Result.error e s ≠ .ok a s' by simp)

theorem run_bind_ok {f : α → EStateM ε σ β} {s s' : σ} {b : β}
    (h : (p >>= f) s = .ok b s') : ∃ a middle, p s = .ok a middle ∧ f a middle = .ok b s' := by
  simp only [bind, EStateM.bind] at h
  split at h
  · exact ⟨_, _, by assumption, h⟩
  · simp at h

theorem run_bind_ok_iff {f : α → EStateM ε σ β} {s s' : σ} {b : β} :
    (p >>= f) s = .ok b s' ↔ ∃ a middle, p s = .ok a middle ∧ f a middle = .ok b s' := by
  constructor
  · exact run_bind_ok
  · intro h
    obtain ⟨a, middle, hp, hf⟩ := h
    simp only [bind, EStateM.bind, hp, hf]

theorem Ensures.bind {f : α → EStateM ε σ β} {R : β → Prop} (hp : Ensures inv p Q)
    (hf : ∀ a, Q a → Ensures inv (f a) R) : Ensures inv (p >>= f) R := by
  intro s b s' hs h
  obtain ⟨a, middle, ha, hb⟩ := run_bind_ok h
  exact hf a (hp hs ha).1 (hp hs ha).2 hb

theorem Ensures.throw_bind {e : ε} {f : β → EStateM ε σ α} :
    Ensures inv ((MonadExcept.throw e : EStateM ε σ β) >>= f) Q :=
  .bind (Q := fun _ => False) .throw fun _ => False.elim

theorem Ensures.ite {c : Prop} [Decidable c] {q : EStateM ε σ α} (hp : c → Ensures inv p Q)
    (hq : ¬c → Ensures inv q Q) : Ensures inv (if c then p else q) Q := by
  split
  · exact hp ‹_›
  · exact hq ‹_›

theorem Ensures.mapM {f : α → EStateM ε σ β} {R : β → Prop} {as : List α}
    (hf : ∀ a ∈ as, Ensures inv (f a) R) : Ensures inv (as.mapM f) fun bs => ∀ b ∈ bs, R b := by
  induction as with
  | nil => exact .pure (by simp)
  | cons a rest ih =>
      rw [List.mapM_cons]
      refine .bind (hf a (by simp)) fun b hb => ?_
      refine .bind (ih fun x hx => hf x (by simp [hx])) fun bs hbs => .pure ?_
      simpa [hb] using hbs

theorem Ensures.foldlM {f : β → α → EStateM ε σ β} {R : β → Prop} {as : List α} {b : β}
    (hb : R b) (hf : ∀ b, R b → ∀ a ∈ as, Ensures inv (f b a) R) :
    Ensures inv (as.foldlM f b) R := by
  induction as generalizing b with
  | nil => exact .pure hb
  | cons a rest ih =>
      rw [List.foldlM_cons]
      refine .bind (hf b hb a (by simp)) fun b' hb' => ?_
      exact ih hb' fun b hb x hx => hf b hb x (by simp [hx])

-- What has been read of a list when its elements are taken one after another.
theorem Ensures.foldlMSplit {f : β → α → EStateM ε σ β} {R : List α → β → Prop} {as : List α}
    {b : β} (hb : R [] b)
    (hf : ∀ before a after b, as = before ++ a :: after → R before b →
      Ensures inv (f b a) (R (before ++ [a]))) : Ensures inv (as.foldlM f b) (R as) := by
  have hrest : ∀ (rest before : List α) (b : β), as = before ++ rest → R before b →
      Ensures inv (rest.foldlM f b) (R as) := by
    intro rest
    induction rest with
    | nil =>
        intro before b has hb
        obtain rfl : as = before := by simpa using has
        exact .pure hb
    | cons a rest ih =>
        intro before b has hb
        rw [List.foldlM_cons]
        refine .bind (hf before a rest b has hb) fun next hnext => ?_
        exact ih (before ++ [a]) next (by simpa using has) hnext
  exact hrest as [] b rfl hb

-- A run from a state with the invariant that fails does so with such an error.
def FailsOnly (inv : σ → Prop) (E : ε → Prop) (p : EStateM ε σ α) : Prop :=
  ∀ ⦃s : σ⦄ ⦃e : ε⦄ ⦃s' : σ⦄, inv s → p s = .error e s' → E e

variable {E : ε → Prop}

theorem FailsOnly.mono {F : ε → Prop} (h : FailsOnly inv E p) (hw : ∀ e, E e → F e) :
    FailsOnly inv F p := fun _ _ _ hs hp => hw _ (h hs hp)

theorem FailsOnly.always (h : FailsOnly (fun _ => True) E p) : FailsOnly inv E p :=
  fun _ _ _ _ hp => h trivial hp

theorem FailsOnly.total (h : ∀ s, ∃ a s', p s = .ok a s') : FailsOnly inv E p := by
  intro s e s' _ hp
  obtain ⟨a, after, ha⟩ := h s
  simp [ha] at hp

theorem FailsOnly.pure {a : α} : FailsOnly inv E (Pure.pure a : EStateM ε σ α) :=
  .total fun s => ⟨a, s, rfl⟩

theorem FailsOnly.throw {e : ε} (h : E e) : FailsOnly inv E (throw e : EStateM ε σ α) := by
  intro s e' s' _ hp
  obtain ⟨rfl, -⟩ := (EStateM.Result.error.injEq ..).mp hp
  exact h

theorem run_bind_error {f : α → EStateM ε σ β} {s s' : σ} {e : ε}
    (h : (p >>= f) s = .error e s') :
    p s = .error e s' ∨ ∃ a middle, p s = .ok a middle ∧ f a middle = .error e s' := by
  simp only [bind, EStateM.bind] at h
  split at h
  · exact .inr ⟨_, _, by assumption, h⟩
  · obtain ⟨rfl, rfl⟩ := (EStateM.Result.error.injEq ..).mp h
    exact .inl (by assumption)

-- What comes after a run starts from a result of it.
theorem FailsOnly.bindOf {f : α → EStateM ε σ β} (hp : FailsOnly inv E p)
    (hq : Ensures inv p Q) (hf : ∀ a, Q a → FailsOnly inv E (f a)) :
    FailsOnly inv E (p >>= f) := by
  intro s e s' hs h
  obtain h | ⟨a, middle, ha, he⟩ := run_bind_error h
  · exact hp hs h
  · exact hf a (hq hs ha).1 (hq hs ha).2 he

theorem FailsOnly.bind {f : α → EStateM ε σ β} (hp : FailsOnly (fun _ => True) E p)
    (hf : ∀ a, FailsOnly (fun _ => True) E (f a)) : FailsOnly (fun _ => True) E (p >>= f) :=
  .bindOf hp .any fun a _ => hf a

theorem FailsOnly.bindPure {f : α → β} (hp : FailsOnly inv E p) :
    FailsOnly inv E (p >>= fun a => Pure.pure (f a)) := by
  intro s e s' hs h
  obtain h | ⟨a, middle, -, he⟩ := run_bind_error h
  · exact hp hs h
  · cases he

theorem FailsOnly.throw_bind {e : ε} {f : β → EStateM ε σ α} (h : E e) :
    FailsOnly inv E ((MonadExcept.throw e : EStateM ε σ β) >>= f) :=
  .bindOf (Q := fun _ => False) (.throw h) .throw fun _ => False.elim

theorem FailsOnly.ite {c : Prop} [Decidable c] {q : EStateM ε σ α} (hp : c → FailsOnly inv E p)
    (hq : ¬c → FailsOnly inv E q) : FailsOnly inv E (if c then p else q) := by
  split
  · exact hp ‹_›
  · exact hq ‹_›

theorem FailsOnly.mapM {f : α → EStateM ε σ β} {as : List α}
    (hf : ∀ a ∈ as, FailsOnly inv E (f a)) (hk : ∀ a ∈ as, Ensures inv (f a) fun _ => True) :
    FailsOnly inv E (as.mapM f) := by
  induction as with
  | nil => exact .pure
  | cons a rest ih =>
      rw [List.mapM_cons]
      refine .bindOf (hf a (by simp)) (hk a (by simp)) fun b _ => ?_
      have hrest := ih (fun x hx => hf x (by simp [hx])) fun x hx => hk x (by simp [hx])
      exact hrest.bindPure

-- The elements of a list are taken one after another, up to the first that fails.
theorem FailsOnly.foldlMSplit {f : β → α → EStateM ε σ β} {R : List α → β → Prop} {as : List α}
    {b : β} (hb : R [] b)
    (hk : ∀ before a after b, as = before ++ a :: after → R before b →
      Ensures inv (f b a) (R (before ++ [a])))
    (hf : ∀ before a after b, as = before ++ a :: after → R before b →
      FailsOnly inv E (f b a)) : FailsOnly inv E (as.foldlM f b) := by
  have hrest : ∀ (rest before : List α) (b : β), as = before ++ rest → R before b →
      FailsOnly inv E (rest.foldlM f b) := by
    intro rest
    induction rest with
    | nil => exact fun _ _ _ _ => .pure
    | cons a rest ih =>
        intro before b has hb
        rw [List.foldlM_cons]
        refine .bindOf (hf before a rest b has hb) (hk before a rest b has hb) fun next hnext => ?_
        exact ih (before ++ [a]) next (by simpa using has) hnext
  exact hrest as [] b rfl hb

-- A run from a state that succeeds and leaves the state as it was.
def Gives (s : σ) (p : EStateM ε σ α) (a : α) : Prop := p s = .ok a s

theorem Gives.pure (s : σ) (a : α) : Gives s (Pure.pure a : EStateM ε σ α) a := rfl

theorem Gives.bind {s : σ} {a : α} {b : β} {f : α → EStateM ε σ β} (hp : Gives s p a)
    (hf : Gives s (f a) b) : Gives s (p >>= f) b := by
  unfold Gives at *
  simp only [Bind.bind, EStateM.bind, hp]
  exact hf

theorem Gives.ite {c : Prop} [Decidable c] {q : EStateM ε σ α} {s : σ} {a : α}
    (hp : c → Gives s p a) (hq : ¬c → Gives s q a) : Gives s (if c then p else q) a := by
  split
  · exact hp ‹_›
  · exact hq ‹_›

theorem Gives.mapM {ι : Type} {s : σ} {f : α → EStateM ε σ β} {e : ι → α} {g : ι → β}
    {is : List ι} (hf : ∀ i ∈ is, Gives s (f (e i)) (g i)) :
    Gives s ((is.map e).mapM f) (is.map g) := by
  induction is with
  | nil => exact .pure s []
  | cons i rest ih =>
      rw [List.map_cons, List.mapM_cons, List.map_cons]
      exact .bind (hf i (by simp)) (.bind (ih fun j hj => hf j (by simp [hj])) (.pure s _))

-- A run from a state that fails with such an error.
def FailsWith (s : σ) (p : EStateM ε σ α) (e : ε) : Prop := ∃ s', p s = .error e s'

theorem FailsWith.bind {s : σ} {e : ε} {f : α → EStateM ε σ β} (h : FailsWith s p e) :
    FailsWith s (p >>= f) e := by
  obtain ⟨s', hp⟩ := h
  exact ⟨s', by simp only [Bind.bind, EStateM.bind, hp]⟩

theorem FailsWith.after {s s' : σ} {a : α} {e : ε} {f : α → EStateM ε σ β} (hp : p s = .ok a s')
    (h : FailsWith s' (f a) e) : FailsWith s (p >>= f) e := by
  obtain ⟨last, hf⟩ := h
  exact ⟨last, by simp only [Bind.bind, EStateM.bind, hp, hf]⟩

theorem FailsWith.mapM {s s' : σ} {f : α → EStateM ε σ β} {front back : List α} {a : α}
    {bs : List β} {e : ε} (hfront : front.mapM f s = .ok bs s') (h : FailsWith s' (f a) e) :
    FailsWith s ((front ++ a :: back).mapM f) e := by
  rw [List.mapM_append]
  refine .after hfront (.bind ?_)
  rw [List.mapM_cons]
  exact .bind h

end

-- Each result of a run over a list comes from its own element.
theorem mapM_except_ok_iff {ε α β : Type} {f : α → Except ε β} {as : List α} {bs : List β} :
    as.mapM f = .ok bs ↔ List.Forall₂ (fun a b => f a = .ok b) as bs := by
  induction as generalizing bs with
  | nil => simp [Pure.pure, Except.pure, eq_comm]
  | cons a rest ih =>
      rw [List.mapM_cons, List.forall₂_cons_left_iff]
      cases hf : f a with
      | error e => simp [bind, Except.bind]
      | ok b =>
          cases hr : rest.mapM f with
          | error e => simp [bind, Except.bind, ← ih, hr]
          | ok more =>
              simp [bind, Except.bind, Pure.pure, Except.pure, ← ih, hr, eq_comm]

theorem forall₂_iff_eq_map {α β : Type} {R : α → β → Prop} {f : α → β}
    (h : ∀ a b, R a b ↔ b = f a) {as : List α} {bs : List β} :
    List.Forall₂ R as bs ↔ bs = as.map f := by
  induction as generalizing bs with
  | nil => cases bs <;> simp
  | cons a as ih => cases bs <;> simp [h, ih]

theorem eq_map_of_forall₂ {α β : Type} {f : α → β} {as : List α} {bs : List β}
    (h : List.Forall₂ (fun a b => b = f a) as bs) : bs = as.map f :=
  (forall₂_iff_eq_map fun _ _ => Iff.rfl).mp h

theorem exists_of_mem_forall₂ {α β : Type} {R : α → β → Prop} {as : List α} {bs : List β}
    (h : List.Forall₂ R as bs) {b : β} (hb : b ∈ bs) : ∃ a ∈ as, R a b := by
  induction h with
  | nil => simp at hb
  | cons ha _ ih =>
      rcases List.mem_cons.mp hb with rfl | hb
      · exact ⟨_, by simp, ha⟩
      · obtain ⟨a, hm, hr⟩ := ih hb
        exact ⟨a, by simp [hm], hr⟩

theorem exists_of_mem_mapM {ε α β : Type} {f : α → Except ε β} {as : List α} {bs : List β}
    (h : as.mapM f = .ok bs) {b : β} (hb : b ∈ bs) : ∃ a ∈ as, f a = .ok b :=
  exists_of_mem_forall₂ (mapM_except_ok_iff.mp h) hb

theorem except_bind_ok {ε α β : Type} {p : Except ε α} {f : α → Except ε β} {b : β}
    (h : (p >>= f) = .ok b) : ∃ a, p = .ok a ∧ f a = .ok b := by
  cases p with
  | error e => simp [bind, Except.bind] at h
  | ok a => exact ⟨a, rfl, h⟩

theorem except_bind_error {ε α β : Type} {p : Except ε α} {f : α → Except ε β} {e : ε}
    (h : (p >>= f) = .error e) : p = .error e ∨ ∃ a, p = .ok a ∧ f a = .error e := by
  cases p with
  | error e' => exact .inl (by simpa [bind, Except.bind] using h)
  | ok a => exact .inr ⟨a, rfl, h⟩

-- A run over a list stops at its first failure.
theorem mapM_except_error {ε α β : Type} {f : α → Except ε β} {front back : List α} {a : α} {e : ε}
    (hfront : ∀ x ∈ front, ∃ b, f x = .ok b) (ha : f a = .error e) :
    (front ++ a :: back).mapM f = .error e := by
  induction front with
  | nil =>
      rw [List.nil_append, List.mapM_cons, ha]
      rfl
  | cons x front ih =>
      obtain ⟨b, hb⟩ := hfront x (by simp)
      rw [List.cons_append, List.mapM_cons, hb, ih fun y hy => hfront y (List.mem_cons_of_mem _ hy)]
      rfl

-- A run over a list fails as it does for one of the elements.
theorem exists_of_mapM_error {ε α β : Type} {f : α → Except ε β} {as : List α} {e : ε}
    (h : as.mapM f = .error e) : ∃ a ∈ as, f a = .error e := by
  induction as with
  | nil => simp [Pure.pure, Except.pure] at h
  | cons a rest ih =>
      rw [List.mapM_cons] at h
      obtain ha | ⟨b, -, h⟩ := except_bind_error h
      · exact ⟨a, by simp, ha⟩
      · obtain hr | ⟨more, -, h⟩ := except_bind_error h
        · obtain ⟨x, hx, he⟩ := ih hr
          exact ⟨x, by simp [hx], he⟩
        · simp [Pure.pure, Except.pure] at h

end TypeStub
