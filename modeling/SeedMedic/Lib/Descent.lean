/-
  Going through the places below a place with a stack: every place is met once, each before what
  lies below it.
-/
import Mathlib.Data.List.Infix
import Mathlib.Data.List.Nodup

namespace Lib

section
variable {ν α : Type} (kids : List ν → List ν) (out : List ν → List α)

/-- Work off a stack of places: each is taken from the top, what it has to show is noted, and what
    lies in it comes on top. -/
def drain : ℕ → List (List ν) → List α → Option (List α)
  | _, [], seen => some seen
  | 0, _ :: _, _ => none
  | fuel + 1, s :: rest, seen =>
    drain fuel ((kids s).map (fun n => s ++ [n]) ++ rest) (seen ++ out s)

/-- A place and the places below it, up to so many levels. -/
def descend : ℕ → List ν → List (List ν)
  | 0, _ => []
  | levels + 1, s => s :: (kids s).flatMap fun n => descend levels (s ++ [n])

variable {kids} {levels : ℕ}

/-- What is below a place is reached from it through what lies in what. -/
theorem mem_descend {s t : List ν} : t ∈ descend kids levels s ↔
    ∃ ns, t = s ++ ns ∧ ns.length < levels ∧ ∀ p n, p ++ [n] <+: ns → n ∈ kids (s ++ p) := by
  induction levels generalizing s with
  | zero => simp [descend]
  | succ levels ih =>
    simp only [descend, List.mem_cons, List.mem_flatMap, ih]
    constructor
    · rintro (rfl | ⟨n, hn, ns, rfl, hlength, hns⟩)
      · exact ⟨[], by simp⟩
      · refine ⟨n :: ns, by simp, by simpa using hlength, fun p m hp => ?_⟩
        cases p with
        | nil =>
          obtain ⟨rfl, -⟩ := List.cons_prefix_cons.1 hp
          simpa using hn
        | cons n' p =>
          obtain ⟨rfl, hrest⟩ := List.cons_prefix_cons.1 hp
          have hm := hns p m hrest
          rwa [List.append_assoc, List.singleton_append] at hm
    · rintro ⟨ns, rfl, hlength, hns⟩
      cases ns with
      | nil => exact .inl (List.append_nil s)
      | cons n ns =>
        refine .inr ⟨n, ?_, ns, by simp, by simpa using hlength, fun p m hp => ?_⟩
        · simpa using hns [] n (List.cons_prefix_cons.2 ⟨rfl, List.nil_prefix⟩)
        · have hm := hns (n :: p) m (List.cons_prefix_cons.2 ⟨rfl, hp⟩)
          rwa [List.append_assoc, List.singleton_append]

theorem prefix_of_mem_descend {s t : List ν} (h : t ∈ descend kids levels s) : s <+: t := by
  obtain ⟨ns, rfl, -⟩ := mem_descend.1 h
  exact List.prefix_append s ns

/-- No place is met twice. -/
theorem nodup_descend : ∀ {s : List ν}, (∀ t ∈ descend kids levels s, (kids t).Nodup) →
    (descend kids levels s).Nodup := by
  induction levels with
  | zero => exact fun _ => List.nodup_nil
  | succ levels ih =>
    intro s h
    have hbelow : ∀ n ∈ kids s, ∀ t ∈ descend kids levels (s ++ [n]), (kids t).Nodup :=
      fun n hn t ht => h t (List.mem_cons_of_mem _ (List.mem_flatMap.2 ⟨n, hn, ht⟩))
    refine List.nodup_cons.2 ⟨fun hmem => ?_, List.nodup_flatMap.2 ⟨fun n hn => ih (hbelow n hn), ?_⟩⟩
    · obtain ⟨n, -, hn⟩ := List.mem_flatMap.1 hmem
      have hle := (prefix_of_mem_descend hn).length_le
      rw [List.length_append, List.length_singleton] at hle
      omega
    · refine (h s (List.mem_cons_self ..)).imp fun {n m} hne => ?_
      intro t hn hm
      -- both names would stand in the same place of `t`
      obtain ⟨ns, rfl⟩ := prefix_of_mem_descend hn
      have hpre := prefix_of_mem_descend hm
      rw [List.append_assoc, List.prefix_append_right_inj, List.singleton_append] at hpre
      exact hne (List.cons_prefix_cons.1 hpre).1.symm

variable {limit : ℕ}

/-- A place is taken off the stack together with everything below it. -/
theorem drain_cons (hdeep : ∀ s, limit < s.length → kids s = []) : ∀ {s rest seen fuel},
    limit < s.length + levels →
      drain kids out ((descend kids (levels + 1) s).length + fuel) (s :: rest) seen =
        drain kids out fuel rest (seen ++ (descend kids (levels + 1) s).flatMap out) := by
  induction levels with
  | zero =>
    intro s rest seen fuel hs
    have hkids := hdeep s hs
    simp only [descend, hkids, List.flatMap_nil, List.length_singleton, Nat.add_comm 1 fuel, drain,
      List.map_nil, List.nil_append, List.flatMap_singleton]
  | succ levels ih =>
    intro s rest seen fuel hs
    -- one place after the other among those that lie in `s`
    have hall : ∀ (ns : List ν) (seen : List α),
        drain kids out ((ns.flatMap fun n => descend kids (levels + 1) (s ++ [n])).length + fuel)
            (ns.map (fun n => s ++ [n]) ++ rest) seen =
          drain kids out fuel rest (seen ++
            (ns.flatMap fun n => descend kids (levels + 1) (s ++ [n])).flatMap out) := by
      intro ns
      induction ns with
      | nil => intro seen; simp
      | cons n ns ihn =>
        intro seen
        have hlength : limit < (s ++ [n]).length + levels := by
          rw [List.length_append, List.length_singleton]
          omega
        rw [List.flatMap_cons, List.length_append, Nat.add_assoc, List.map_cons, List.cons_append,
          ih hlength, ihn, List.flatMap_append, List.append_assoc]
    rw [descend, List.length_cons, Nat.add_right_comm, drain, hall, List.flatMap_cons,
      List.append_assoc]

/-- With enough fuel everything below a place is gone through, in order. -/
theorem drain_eq (hdeep : ∀ s, limit < s.length → kids s = []) :
    ∃ enough, ∀ fuel, enough ≤ fuel →
      drain kids out fuel [[]] [] = some ((descend kids (limit + 2) []).flatMap out) := by
  refine ⟨(descend kids (limit + 2) []).length, fun fuel hfuel => ?_⟩
  obtain ⟨more, rfl⟩ := Nat.exists_eq_add_of_le hfuel
  have h : drain kids out ((descend kids (limit + 2) []).length + more) [[]] [] =
      drain kids out more [] ([] ++ (descend kids (limit + 2) []).flatMap out) :=
    drain_cons out hdeep (by simp)
  rw [h, List.nil_append]
  cases more <;> rfl

end

end Lib
