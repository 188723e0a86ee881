/-
  Two runs of interaction programs side by side: how far each comes, and what holds between the
  results and the states they come to.
-/
import SeedMedic.Lib.Hoare

namespace Lib.Prog

variable {C : Type} {A : C → Type} {σ α β L : Type}

/-! ## Runs that may be cut off -/

/-- What a run returns, unless a call goes unanswered, and the state it comes to. -/
def carry (h : (c : C) → σ → Option (A c) × σ) : Prog C A α → σ → Option α × σ
  | ret a, s => (some a, s)
  | call c k, s =>
    match h c s with
    | (some r, s') => (k r).carry h s'
    | (none, s') => (none, s')

section
variable {h : (c : C) → σ → Option (A c) × σ} {s s' : σ}

@[simp] theorem carry_ret {a : α} : (ret a : Prog C A α).carry h s = (some a, s) := rfl

theorem carry_call {c : C} {k : A c → Prog C A α} {r : A c} (hr : h c s = (some r, s')) :
    (call c k).carry h s = (k r).carry h s' := by
  simp only [carry, hr]

theorem carry_call_none {c : C} {k : A c → Prog C A α} (hr : h c s = (none, s')) :
    (call c k).carry h s = (none, s') := by
  simp only [carry, hr]

theorem carry_bind_some {p : Prog C A α} {f : α → Prog C A β} {a : α}
    (hp : p.carry h s = (some a, s')) : (p >>= f).carry h s = (f a).carry h s' := by
  induction p generalizing s with
  | ret b =>
    cases hp
    rfl
  | call c k ih =>
    rw [call_bind]
    rcases hr : h c s with ⟨_ | r, t⟩
    · rw [carry_call_none hr] at hp
      cases hp
    · rw [carry_call hr] at hp ⊢
      exact ih _ hp

theorem carry_bind_none {p : Prog C A α} {f : α → Prog C A β}
    (hp : p.carry h s = (none, s')) : (p >>= f).carry h s = (none, s') := by
  induction p generalizing s with
  | ret b => cases hp
  | call c k ih =>
    rw [call_bind]
    rcases hr : h c s with ⟨_ | r, t⟩
    · rw [carry_call_none hr] at hp ⊢
      cases hp
      rfl
    · rw [carry_call hr] at hp ⊢
      exact ih _ hp

end

/-- A run shows what rules say of what is returned, where its answers are as they have it. -/
theorem Obeys.carry {R : Rules C A L} {Q : α → L → Prop} {I : σ → L → Prop}
    {h : (c : C) → σ → Option (A c) × σ} {p : Prog C A α} {l : L} {s : σ} {a : α}
    (hp : p.Obeys R l Q) (hI : I s l)
    (hnext : ∀ c s l r s', I s l → R.may c l → h c s = (some r, s') →
      ∃ l', R.next c r l l' ∧ I s' l')
    (hrun : (p.carry h s).1 = some a) : ∃ l', Q a l' ∧ I (p.carry h s).2 l' := by
  induction p generalizing l s with
  | ret b =>
    cases hrun
    exact ⟨l, hp, hI⟩
  | call c k ih =>
    rcases hr : h c s with ⟨_ | r, t⟩
    · rw [carry_call_none hr] at hrun
      cases hrun
    · rw [carry_call hr] at hrun ⊢
      obtain ⟨l', hl', hI'⟩ := hnext c s l r t hI hp.1 hr
      exact ih _ (hp.2 _ _ hl') hI' hrun

/-- What a program always returns it returns in such a run. -/
theorem Returns.carry {Q : α → Prop} {h : (c : C) → σ → Option (A c) × σ} {p : Prog C A α}
    {s : σ} {a : α} (hp : p.Returns Q) (hrun : (p.carry h s).1 = some a) : Q a := by
  induction p generalizing s with
  | ret b =>
    cases hrun
    exact hp
  | call c k ih =>
    rcases hr : h c s with ⟨_ | r, t⟩
    · rw [carry_call_none hr] at hrun
      cases hrun
    · rw [carry_call hr] at hrun
      exact ih _ (hp _) hrun

/-! ## Side by side -/

/-- Two runs that both return, or are both cut off, with what holds between them then. -/
def Abreast (R : σ → σ → Prop) (Q : α → α → σ → σ → Prop) : Option α × σ → Option α × σ → Prop
  | (some a, s), (some a', s') => Q a a' s s'
  | (none, s), (none, s') => R s s'
  | _, _ => False

/-- A call that is answered the same in both states, or in neither. -/
def Tied (h : (c : C) → σ → Option (A c) × σ) (R : σ → σ → Prop) (c : C) (s s' : σ) : Prop :=
  (h c s).1 = (h c s').1 ∧ R (h c s).2 (h c s').2

section
variable {h : (c : C) → σ → Option (A c) × σ} {R R' : σ → σ → Prop}
  {Q Q' : α → α → σ → σ → Prop} {P : β → β → σ → σ → Prop} {s s' : σ}

theorem Abreast.mono {o o' : Option α × σ} (ho : Abreast R Q o o') (hR : ∀ s s', R s s' → R' s s')
    (hQ : ∀ a a' s s', Q a a' s s' → Q' a a' s s') : Abreast R' Q' o o' := by
  obtain ⟨_ | a, s⟩ := o <;> obtain ⟨_ | a', s'⟩ := o'
  · exact hR _ _ ho
  · exact ho.elim
  · exact ho.elim
  · exact hQ _ _ _ _ ho

/-- More that is known of what the first run returns. -/
theorem Abreast.and {P : α → Prop} {o o' : Option α × σ} (ho : Abreast R Q o o')
    (hP : ∀ a, o.1 = some a → P a) : Abreast R (fun a a' s s' => Q a a' s s' ∧ P a) o o' := by
  obtain ⟨_ | a, s⟩ := o <;> obtain ⟨_ | a', s'⟩ := o'
  · exact ho
  · exact ho.elim
  · exact ho.elim
  · exact ⟨ho, hP a rfl⟩

/-- Where they come to, whether they return or not. -/
theorem Abreast.states {o o' : Option α × σ} (ho : Abreast R Q o o')
    (hQ : ∀ a a' s s', Q a a' s s' → R s s') : R o.2 o'.2 := by
  obtain ⟨_ | a, s⟩ := o <;> obtain ⟨_ | a', s'⟩ := o'
  · exact ho
  · exact ho.elim
  · exact ho.elim
  · exact hQ _ _ _ _ ho

/-- One part after the other, in both runs. -/
theorem Abreast.bind {p p' : Prog C A α} {f f' : α → Prog C A β}
    (hp : Abreast R Q (p.carry h s) (p'.carry h s'))
    (hf : ∀ a a' s s', Q a a' s s' → Abreast R P ((f a).carry h s) ((f' a').carry h s')) :
    Abreast R P ((p >>= f).carry h s) ((p' >>= f').carry h s') := by
  rcases hr : p.carry h s with ⟨_ | a, t⟩ <;> rcases hr' : p'.carry h s' with ⟨_ | a', t'⟩ <;>
    rw [hr, hr'] at hp
  · rw [carry_bind_none hr, carry_bind_none hr']
    exact hp
  · exact hp.elim
  · exact hp.elim
  · rw [carry_bind_some hr, carry_bind_some hr']
    exact hf _ _ _ _ hp

/-- Where a call is tied, so is what follows it. -/
theorem Tied.abreast {c : C} {k k' : A c → Prog C A α} (ht : Tied h R c s s')
    (hk : ∀ r t t', h c s = (some r, t) → R t t' →
      Abreast R Q ((k r).carry h t) ((k' r).carry h t')) :
    Abreast R Q ((call c k).carry h s) ((call c k').carry h s') := by
  obtain ⟨hsame, hR⟩ := ht
  rcases hr : h c s with ⟨o, t⟩
  rcases hr' : h c s' with ⟨o', t'⟩
  rw [hr, hr'] at hsame hR
  obtain rfl : o = o' := hsame
  cases o with
  | none =>
    rw [carry_call_none hr, carry_call_none hr']
    exact hR
  | some r =>
    rw [carry_call hr, carry_call hr']
    exact hk r t t' hr hR

/-- One program in two states that answer its calls alike comes equally far, and returns the
    same. -/
theorem Only.abreast {p : Prog C A α} {G : C → Prop} (hp : p.Only G) (hR : R s s')
    (hG : ∀ c s s', G c → R s s' → Tied h R c s s') :
    Abreast R (fun a a' t t' => a = a' ∧ R t t') (p.carry h s) (p.carry h s') := by
  induction p generalizing s s' with
  | ret a => exact ⟨rfl, hR⟩
  | call c k ih => exact (hG c s s' hp.1 hR).abreast fun r t t' _ ht => ih r (hp.2 r) ht

end

end Lib.Prog
