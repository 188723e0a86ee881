/-
  Computations that may fail: when a sequence of them succeeds.
-/
import Mathlib.Data.List.Basic
import Mathlib.Data.List.Forall2

namespace Lib

/-- A sequence succeeds when both parts do. -/
theorem bind_eq_ok {ε α β : Type} {x : Except ε α} {f : α → Except ε β} {b : β} :
    (x >>= f) = .ok b ↔ ∃ a, x = .ok a ∧ f a = .ok b := by
  cases x with
  | error e => simp [bind, Except.bind]
  | ok a => simp [bind, Except.bind]

/-- What a computation that is made for every item gives comes from one of them. -/
theorem mem_of_mapM {ε α β : Type} {f : α → Except ε β} {b : β} : ∀ {xs : List α} {ys : List β},
    xs.mapM f = .ok ys → b ∈ ys → ∃ x ∈ xs, f x = .ok b
  | [], ys, h, hb => by
    cases h
    cases hb
  | x :: xs, ys, h, hb => by
    rw [List.mapM_cons] at h
    obtain ⟨y, hy, hrest⟩ := bind_eq_ok.1 h
    obtain ⟨zs, hzs, hdone⟩ := bind_eq_ok.1 hrest
    cases hdone
    rcases List.mem_cons.1 hb with rfl | hb
    · exact ⟨x, List.mem_cons_self .., hy⟩
    · obtain ⟨x', hx', hf⟩ := mem_of_mapM hzs hb
      exact ⟨x', List.mem_cons_of_mem _ hx', hf⟩

/-- What the results of a list look like, when each of them looks like what it is made of. -/
theorem map_mapM {ε α β γ : Type} {f : α → Except ε β} {g : β → γ} {k : α → γ}
    (hf : ∀ {a b}, f a = .ok b → g b = k a) : ∀ {xs : List α} {ys : List β},
    xs.mapM f = .ok ys → ys.map g = xs.map k
  | [], _, h => by
    cases h
    rfl
  | x :: xs, ys, h => by
    rw [List.mapM_cons] at h
    obtain ⟨y, hy, hrest⟩ := bind_eq_ok.1 h
    obtain ⟨zs, hzs, hdone⟩ := bind_eq_ok.1 hrest
    cases hdone
    rw [List.map_cons, List.map_cons, hf hy, map_mapM hf hzs]

/-- A function that is applied to every item of a list gives a result for each of them. -/
theorem mapM_eq_some {α β : Type} {f : α → Option β} : ∀ {xs : List α} {ys : List β},
    xs.mapM f = some ys ↔ List.Forall₂ (fun x y => f x = some y) xs ys
  | [], ys => by
    simp [List.forall₂_nil_left_iff, eq_comm]
  | x :: xs, ys => by
    simp only [List.mapM_cons, Option.bind_eq_bind, Option.bind_eq_some_iff, Option.pure_def,
      Option.some.injEq]
    constructor
    · rintro ⟨y, hy, zs, hzs, rfl⟩
      exact .cons hy (mapM_eq_some.1 hzs)
    · intro h
      cases h with
      | cons hy hzs => exact ⟨_, hy, _, mapM_eq_some.2 hzs, rfl⟩

/-- Where two lists are related item by item, every item of the second has one of the first. -/
theorem exists_of_forall₂ {α β : Type} {R : α → β → Prop} {xs : List α} {ys : List β}
    (h : List.Forall₂ R xs ys) {y : β} (hy : y ∈ ys) : ∃ x ∈ xs, R x y := by
  induction h with
  | nil => cases hy
  | cons hxy _ ih =>
    obtain rfl | hy := List.mem_cons.1 hy
    · exact ⟨_, List.mem_cons_self, hxy⟩
    · obtain ⟨x, hx, hR⟩ := ih hy
      exact ⟨x, List.mem_cons_of_mem _ hx, hR⟩

theorem getElem?_of_forall₂ {α β : Type} {R : α → β → Prop} {xs : List α} {ys : List β}
    (h : List.Forall₂ R xs ys) {i : ℕ} {x : α} (hx : xs[i]? = some x) :
    ∃ y, ys[i]? = some y ∧ R x y := by
  obtain ⟨hi, rfl⟩ := List.getElem?_eq_some_iff.1 hx
  have hi' : i < ys.length := h.length_eq ▸ hi
  exact ⟨ys[i], List.getElem?_eq_getElem hi', h.get hi hi'⟩

theorem mapM_eq_ok {ε α β : Type} {f : α → Except ε β} : ∀ {xs : List α} {ys : List β},
    xs.mapM f = .ok ys ↔ List.Forall₂ (fun x y => f x = .ok y) xs ys
  | [], ys => by
    simp [List.forall₂_nil_left_iff, pure, Except.pure, eq_comm]
  | x :: xs, ys => by
    simp only [List.mapM_cons, bind_eq_ok]
    constructor
    · rintro ⟨y, hy, zs, hzs, h⟩
      cases h
      exact .cons hy (mapM_eq_ok.1 hzs)
    · intro h
      cases h with
      | cons hy hzs => exact ⟨_, hy, _, mapM_eq_ok.2 hzs, rfl⟩

/-- What every step of a loop keeps holds of its result. -/
theorem foldlM_invariant {ε σ α : Type} {f : σ → α → Except ε σ} {I : σ → Prop}
    (hf : ∀ {s a s'}, f s a = .ok s' → I s → I s') : ∀ {xs : List α} {s s' : σ},
    xs.foldlM f s = .ok s' → I s → I s'
  | [], _, _, h, hs => by
    cases h
    exact hs
  | x :: xs, s, s', h, hs => by
    rw [List.foldlM_cons] at h
    obtain ⟨s₁, hx, hrest⟩ := bind_eq_ok.1 h
    exact foldlM_invariant hf hrest (hf hx hs)

end Lib
