import Mathlib.Data.List.Forall2

/-!
# Outcomes

What the outcome of a computation that may fail says about its parts: of a sequence
of two, of a walk over a list, and of a list computed element by element. A walk over
elements that may have a fault is refused for the first one (`foldlM_eq_barring`). Walks that
may get stuck without a reason do not, if no step on the way does.
-/

namespace SignalGraph

variable {ε α β σ : Type} {e : ε}

theorem bind_eq_ok_iff {x : Except ε α} {f : α → Except ε β} {b : β} :
    x >>= f = .ok b ↔ ∃ a, x = .ok a ∧ f a = .ok b := by
  cases x <;> simp [bind, Except.bind]

theorem bind_eq_error_iff {x : Except ε α} {f : α → Except ε β} :
    x >>= f = .error e ↔ x = .error e ∨ ∃ a, x = .ok a ∧ f a = .error e := by
  cases x <;> simp [bind, Except.bind]

theorem map_eq_ok_iff {x : Except ε α} {f : α → β} {b : β} :
    x.map f = .ok b ↔ ∃ a, x = .ok a ∧ f a = b := by
  cases x <;> simp [Except.map]

theorem map_eq_error_iff {x : Except ε α} {f : α → β} : x.map f = .error e ↔ x = .error e := by
  cases x <;> simp [Except.map]

theorem mapError_eq_ok_iff {ε' : Type} {x : Except ε α} {f : ε → ε'} {a : α} :
    x.mapError f = .ok a ↔ x = .ok a := by
  cases x <;> simp [Except.mapError]

/-! ## Walks -/

/-- What each step of a walk keeps, the walk keeps; what a step over an element
    achieves, holds of all elements in the end, if later steps do not undo it. -/
theorem foldlM_eq_ok (Inv : σ → Prop) (Later : σ → σ → Prop) (Done : α → σ → Prop)
    {f : σ → α → Except ε σ} (hrefl : ∀ s, Later s s)
    (htrans : ∀ s₁ s₂ s₃, Later s₁ s₂ → Later s₂ s₃ → Later s₁ s₃)
    (hdone : ∀ a s s', Done a s → Later s s' → Done a s') {l : List α}
    (hstep : ∀ a ∈ l, ∀ s s', Inv s → f s a = .ok s' → Inv s' ∧ Later s s' ∧ Done a s')
    {s s' : σ} (hs : Inv s) (h : l.foldlM f s = .ok s') :
    Inv s' ∧ Later s s' ∧ ∀ a ∈ l, Done a s' := by
  induction l generalizing s with
  | nil =>
    obtain rfl : s = s' := by simpa [pure, Except.pure] using h
    exact ⟨hs, hrefl s, by simp⟩
  | cons a l ih =>
    rw [List.foldlM_cons, bind_eq_ok_iff] at h
    obtain ⟨t, ht, h⟩ := h
    obtain ⟨hinv, hlater, ha⟩ := hstep a List.mem_cons_self s t hs ht
    obtain ⟨hinv', hlater', hl⟩ := ih (fun b hb => hstep b (List.mem_cons_of_mem _ hb)) hinv h
    refine ⟨hinv', htrans _ _ _ hlater hlater', fun b hb => ?_⟩
    rcases List.mem_cons.1 hb with rfl | hb
    · exact hdone b t s' ha hlater'
    · exact hl b hb

/-- A walk fails at an element. -/
theorem exists_of_foldlM_eq_error {f : σ → α → Except ε σ} {l : List α} {s : σ}
    (h : l.foldlM f s = .error e) : ∃ a ∈ l, ∃ t, f t a = .error e := by
  induction l generalizing s with
  | nil => simp [pure, Except.pure] at h
  | cons a l ih =>
    rw [List.foldlM_cons, bind_eq_error_iff] at h
    rcases h with h | ⟨t, _, h⟩
    · exact ⟨a, List.mem_cons_self, s, h⟩
    · obtain ⟨b, hb, t, ht⟩ := ih h
      exact ⟨b, List.mem_cons_of_mem _ hb, t, ht⟩

/-- Two walks go along with each other, element by element, if their steps do. -/
theorem exists_foldlM_map {τ γ : Type} (R : σ → τ → Prop) {f : σ → α → Except ε σ}
    {g : τ → γ → Except ε τ} (m : α → γ) {l : List α}
    (hstep : ∀ a ∈ l, ∀ s t s', R s t → f s a = .ok s' → ∃ t', g t (m a) = .ok t' ∧ R s' t')
    {s s' : σ} {t : τ} (hst : R s t) (h : l.foldlM f s = .ok s') :
    ∃ t', (l.map m).foldlM g t = .ok t' ∧ R s' t' := by
  induction l generalizing s t with
  | nil =>
    obtain rfl : s = s' := by simpa [pure, Except.pure] using h
    exact ⟨t, rfl, hst⟩
  | cons a l ih =>
    rw [List.foldlM_cons, bind_eq_ok_iff] at h
    obtain ⟨s₁, hs₁, h⟩ := h
    obtain ⟨t₁, ht₁, hst₁⟩ := hstep a List.mem_cons_self s t s₁ hst hs₁
    obtain ⟨t', ht', hst'⟩ := ih (fun b hb => hstep b (List.mem_cons_of_mem a hb)) hst₁ h
    exact ⟨t', bind_eq_ok_iff.2 ⟨t₁, ht₁, ht'⟩, hst'⟩

/-! ## Faults -/

section Faults

variable {f g : σ → α → Except ε σ} {fault? : α → Option ε} {l : List α} {s s' : σ}

/-- The result, unless there is a fault. -/
def barring (fault? : Option ε) (a : α) : Except ε α :=
  match fault? with
  | none => .ok a
  | some fault => .error fault

@[simp] theorem barring_none (a : α) : barring (none : Option ε) a = .ok a := rfl

@[simp] theorem barring_some (fault : ε) (a : α) : barring (some fault) a = .error fault := rfl

/-- If the steps over elements with a fault are refused, and the others go along with those
    of a walk that comes to an end, then a walk is refused for the first fault. -/
theorem foldlM_eq_barring
    (hstep : ∀ a ∈ l, ∀ s s', g s a = .ok s' → f s a = barring (fault? a) s')
    (h : l.foldlM g s = .ok s') : l.foldlM f s = barring (l.findSome? fault?) s' := by
  induction l generalizing s with
  | nil => exact h
  | cons a l ih =>
    rw [List.foldlM_cons, bind_eq_ok_iff] at h
    obtain ⟨t, ht, h⟩ := h
    rw [List.foldlM_cons, hstep a List.mem_cons_self s t ht, List.findSome?_cons]
    cases fault? a with
    | none => exact ih (fun b hb => hstep b (List.mem_cons_of_mem a hb)) h
    | some fault => rfl

/-- What is found first comes before all else that could be found. -/
theorem exists_of_findSome?_eq_some {find? : α → Option β} {b : β}
    (h : l.findSome? find? = some b) : ∃ i a, l[i]? = some a ∧ find? a = some b ∧
      ∀ (j : Nat) other, l[j]? = some other → find? other ≠ none → i ≤ j := by
  obtain ⟨before, a, after, rfl, ha, hbefore⟩ := List.findSome?_eq_some_iff.1 h
  refine ⟨before.length, a, by simp, ha, fun j other hj hother => ?_⟩
  by_contra hlt
  rw [List.getElem?_append_left (Nat.not_le.1 hlt)] at hj
  exact hother (hbefore other (List.mem_of_getElem? hj))

end Faults

/-! ## Lists -/

/-- A list is computed if each of its elements is. -/
theorem mapM_eq_ok_iff {f : α → Except ε β} {l : List α} {l' : List β} :
    l.mapM f = .ok l' ↔ List.Forall₂ (fun a b => f a = .ok b) l l' := by
  induction l generalizing l' with
  | nil => simp [pure, Except.pure, eq_comm]
  | cons a l ih =>
    rw [List.mapM_cons, bind_eq_ok_iff]
    constructor
    · rintro ⟨b, hb, h⟩
      obtain ⟨bs, hbs, h⟩ := bind_eq_ok_iff.1 h
      obtain rfl : b :: bs = l' := by simpa [pure, Except.pure] using h
      exact .cons hb (ih.1 hbs)
    · rintro (_ | ⟨hb, hbs⟩)
      exact ⟨_, hb, bind_eq_ok_iff.2 ⟨_, ih.2 hbs, rfl⟩⟩

theorem mapM_congr {f g : α → Except ε β} {l : List α} (h : ∀ a ∈ l, f a = g a) :
    l.mapM f = l.mapM g := by
  induction l with
  | nil => rfl
  | cons a l ih =>
    rw [List.mapM_cons, List.mapM_cons, h a List.mem_cons_self,
      ih fun b hb => h b (List.mem_cons_of_mem a hb)]

theorem exists_mapM_eq_ok {f : α → Except ε β} {l : List α} (h : ∀ a ∈ l, ∃ b, f a = .ok b) :
    ∃ l', l.mapM f = .ok l' := by
  induction l with
  | nil => exact ⟨[], rfl⟩
  | cons a l ih =>
    obtain ⟨b, hb⟩ := h a List.mem_cons_self
    obtain ⟨bs, hbs⟩ := ih fun a ha => h a (List.mem_cons_of_mem _ ha)
    exact ⟨b :: bs, mapM_eq_ok_iff.2 (.cons hb (mapM_eq_ok_iff.1 hbs))⟩

/-! ## Walks that may get stuck -/

/-- A walk does not get stuck as long as its steps keep what they need. -/
theorem foldlM_eq_some (Inv : σ → Prop) {f : σ → α → Option σ} {g : σ → α → σ} {l : List α}
    (hstep : ∀ a ∈ l, ∀ s, Inv s → f s a = some (g s a) ∧ Inv (g s a)) {s : σ} (hs : Inv s) :
    l.foldlM f s = some (l.foldl g s) ∧ Inv (l.foldl g s) := by
  induction l generalizing s with
  | nil => exact ⟨rfl, hs⟩
  | cons a l ih =>
    obtain ⟨ha, hinv⟩ := hstep a List.mem_cons_self s hs
    rw [List.foldlM_cons, ha, List.foldl_cons]
    exact ih (fun b hb => hstep b (List.mem_cons_of_mem a hb)) hinv

theorem mapM_eq_some {f : α → Option β} {g : α → β} {l : List α}
    (h : ∀ a ∈ l, f a = some (g a)) : l.mapM f = some (l.map g) := by
  induction l with
  | nil => rfl
  | cons a l ih =>
    rw [List.mapM_cons, h a List.mem_cons_self, ih fun b hb => h b (List.mem_cons_of_mem a hb)]
    rfl

end SignalGraph
