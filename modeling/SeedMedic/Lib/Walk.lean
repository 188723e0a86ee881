/-
  Walking a file tree as a system does: what a path leads to through the links on its way, and the
  directories that are made for a path that leads nowhere yet.
-/
import SeedMedic.Lib.FileTree

namespace Lib

namespace FileTree

variable {ν : Type}

/-! ## Where a path leads -/

section
variable (fs : FileTree ν)

/-- Walk on from a directory with `k` links left to follow; `follow` walks what a link says. -/
def walkFrom (follow : List ν → List (PathStep ν) → Option (ℕ × List ν)) (k : ℕ) :
    List ν → List (PathStep ν) → Option (ℕ × List ν)
  | d, [] => some (k, d)
  | d, .up :: p => walkFrom follow k d.dropLast p
  | d, .name n :: p =>
    match fs.node (d ++ [n]) with
    | none => none
    | some .dir => walkFrom follow k (d ++ [n]) p
    | some (.link a t) => follow (if a then [] else d) (t ++ p)
    | some (.file _) | some .special => if p.isEmpty then some (k, d ++ [n]) else none

/-- The place that a path leads to from a directory, and the links left to follow. -/
def walk : ℕ → List ν → List (PathStep ν) → Option (ℕ × List ν)
  | 0 => fs.walkFrom (fun _ _ => none) 0
  | k + 1 => fs.walkFrom (walk k) (k + 1)

end

variable {fs fs' : FileTree ν} {k k' : ℕ} {d d' l : List ν} {p q : List (PathStep ν)} {n : ν}

@[simp] theorem walk_nil : fs.walk k d [] = some (k, d) := by cases k <;> rfl

@[simp] theorem walk_up : fs.walk k d (.up :: p) = fs.walk k d.dropLast p := by cases k <;> rfl

theorem walk_dir (h : fs.node (d ++ [n]) = some .dir) :
    fs.walk k d (.name n :: p) = fs.walk k (d ++ [n]) p := by
  cases k <;> simp only [walk, walkFrom, h]

theorem walk_none (h : fs.node (d ++ [n]) = none) : fs.walk k d (.name n :: p) = none := by
  cases k <;> simp only [walk, walkFrom, h]

theorem walk_link {a : Bool} {t : List (PathStep ν)} (h : fs.node (d ++ [n]) = some (.link a t)) :
    fs.walk (k + 1) d (.name n :: p) = fs.walk k (if a then [] else d) (t ++ p) := by
  simp only [walk, walkFrom, h]

theorem walk_loop {a : Bool} {t : List (PathStep ν)} (h : fs.node (d ++ [n]) = some (.link a t)) :
    fs.walk 0 d (.name n :: p) = none := by
  simp only [walk, walkFrom, h]

/-- Something that is neither a directory nor a link. -/
def Ends (fs : FileTree ν) (l : List ν) : Prop :=
  (∃ i, fs.node l = some (.file i)) ∨ fs.node l = some .special

theorem walk_ends (h : fs.Ends (d ++ [n])) :
    fs.walk k d (.name n :: p) = if p.isEmpty then some (k, d ++ [n]) else none := by
  rcases h with ⟨i, h⟩ | h <;> cases k <;> simp only [walk, walkFrom, h]

/-- What can lie at the end of a step down. -/
theorem node_cases (fs : FileTree ν) (l : List ν) : fs.node l = none ∨ fs.node l = some .dir ∨
    (∃ a t, fs.node l = some (.link a t)) ∨ fs.Ends l := by
  cases h : fs.node l with
  | none => exact .inl rfl
  | some x =>
    cases x with
    | dir => exact .inr (.inl rfl)
    | file i => exact .inr (.inr (.inr (.inl ⟨i, h⟩)))
    | link a t => exact .inr (.inr (.inl ⟨a, t, rfl⟩))
    | special => exact .inr (.inr (.inr (.inr h)))

/-- Walks are taken apart link by link, and step by step between two links. -/
theorem walk_induction {motive : ℕ → List ν → List (PathStep ν) → Prop}
    (nil : ∀ k d, motive k d [])
    (up : ∀ k d p, motive k d.dropLast p → motive k d (.up :: p))
    (down : ∀ k d n p, fs.node (d ++ [n]) = some .dir → motive k (d ++ [n]) p →
      motive k d (.name n :: p))
    (link : ∀ k d n p a t, fs.node (d ++ [n]) = some (.link a t) →
      motive k (if a then [] else d) (t ++ p) → motive (k + 1) d (.name n :: p))
    (loop : ∀ d n p a t, fs.node (d ++ [n]) = some (.link a t) → motive 0 d (.name n :: p))
    (missing : ∀ k d n p, fs.node (d ++ [n]) = none → motive k d (.name n :: p))
    (ends : ∀ k d n p, fs.Ends (d ++ [n]) → motive k d (.name n :: p)) :
    ∀ k d p, motive k d p := by
  intro k
  induction k with
  | zero =>
    intro d p
    induction p generalizing d with
    | nil => exact nil 0 d
    | cons s p ih =>
      cases s with
      | up => exact up 0 d p (ih _)
      | name n =>
        rcases fs.node_cases (d ++ [n]) with h | h | ⟨a, t, h⟩ | h
        · exact missing 0 d n p h
        · exact down 0 d n p h (ih _)
        · exact loop d n p a t h
        · exact ends 0 d n p h
  | succ k ihk =>
    intro d p
    induction p generalizing d with
    | nil => exact nil _ d
    | cons s p ih =>
      cases s with
      | up => exact up _ d p (ih _)
      | name n =>
        rcases fs.node_cases (d ++ [n]) with h | h | ⟨a, t, h⟩ | h
        · exact missing _ d n p h
        · exact down _ d n p h (ih _)
        · exact link k d n p a t h (ihk _ _)
        · exact ends _ d n p h

theorem dir_dropLast (h : fs.node d = some .dir) : fs.node d.dropLast = some .dir :=
  dir_of_isPrefix h d.dropLast_prefix

/-- The directory that a link leads on from. -/
theorem dir_of_link (h : fs.node d = some .dir) (a : Bool) :
    fs.node (if a then [] else d) = some .dir := by
  split_ifs
  · exact dir_of_isPrefix h d.nil_prefix
  · exact h

/-- A walk from a directory ends at something that is there, and no link. -/
theorem walk_there (hd : fs.node d = some .dir) (h : fs.walk k d p = some (k', l)) :
    fs.node l = some .dir ∨ fs.Ends l := by
  revert hd h
  refine fs.walk_induction (motive := fun k d p => fs.node d = some .dir →
    fs.walk k d p = some (k', l) → fs.node l = some .dir ∨ fs.Ends l) ?_ ?_ ?_ ?_ ?_ ?_ ?_ k d p
  · intro k d hd h
    rw [walk_nil] at h
    cases h
    exact .inl hd
  · intro k d p ih hd h
    exact ih (dir_dropLast hd) (walk_up ▸ h)
  · intro k d n p hn ih _ h
    exact ih hn (walk_dir hn ▸ h)
  · intro k d n p a t hn ih hd h
    exact ih (dir_of_link hd a) (walk_link hn ▸ h)
  · intro d n p a t hn _ h
    rw [walk_loop hn] at h
    cases h
  · intro k d n p hn _ h
    rw [walk_none hn] at h
    cases h
  · intro k d n p hn _ h
    rw [walk_ends hn] at h
    split_ifs at h
    cases h
    exact .inr hn

/-- A walk of two parts. -/
theorem walk_append [DecidableEq ν] (hd : fs.node d = some .dir) : fs.walk k d (p ++ q) =
    (fs.walk k d p).bind fun r =>
      if q = [] then some r else if fs.node r.2 = some .dir then fs.walk r.1 r.2 q else none := by
  by_cases hq : q = []
  · subst hq
    simp
  revert hd
  refine fs.walk_induction (motive := fun k d p => fs.node d = some .dir →
    fs.walk k d (p ++ q) = (fs.walk k d p).bind fun r =>
      if q = [] then some r else if fs.node r.2 = some .dir then fs.walk r.1 r.2 q else none)
    ?_ ?_ ?_ ?_ ?_ ?_ ?_ k d p
  · intro k d hd
    rw [walk_nil, Option.bind_some, if_neg hq, if_pos hd, List.nil_append]
  · intro k d p ih hd
    rw [List.cons_append, walk_up, walk_up]
    exact ih (dir_dropLast hd)
  · intro k d n p hn ih _
    rw [List.cons_append, walk_dir hn, walk_dir hn]
    exact ih hn
  · intro k d n p a t hn ih hd
    rw [List.cons_append, walk_link hn, walk_link hn, ← List.append_assoc]
    exact ih (dir_of_link hd a)
  · intro d n p a t hn _
    rw [List.cons_append, walk_loop hn, walk_loop hn, Option.bind_none]
  · intro k d n p hn _
    rw [List.cons_append, walk_none hn, walk_none hn, Option.bind_none]
  · intro k d n p hn _
    have hdir : fs.node (d ++ [n]) ≠ some .dir := by
      rcases hn with ⟨i, hn⟩ | hn <;> rw [hn] <;> nofun
    rw [List.cons_append, walk_ends hn, walk_ends hn, if_neg (by simp [hq])]
    split_ifs
    · rw [Option.bind_some, if_neg hdir]
    · rfl

/-- The second part of a walk starts where the first leads. -/
theorem walk_append_of_dir (hd : fs.node d = some .dir) (h : fs.walk k d p = some (k', d'))
    (hd' : fs.node d' = some .dir) : fs.walk k d (p ++ q) = fs.walk k' d' q := by
  classical
  rw [walk_append hd, h, Option.bind_some]
  split_ifs with hq
  · rw [hq, walk_nil]
  · rfl

theorem walk_append_some {r : ℕ × List ν} (hd : fs.node d = some .dir) (hq : q ≠ [])
    (h : fs.walk k d (p ++ q) = some r) : ∃ k' d', fs.walk k d p = some (k', d') ∧
      fs.node d' = some .dir ∧ fs.walk k' d' q = some r := by
  classical
  rw [walk_append hd, Option.bind_eq_some_iff] at h
  obtain ⟨⟨k', d'⟩, hp, h⟩ := h
  rw [if_neg hq] at h
  split_ifs at h with hd'
  exact ⟨k', d', hp, hd', h⟩

/-! ## Trees that grow by directories -/

/-- Whatever was there stays, and what is new is a directory. -/
structure Extends (fs fs' : FileTree ν) : Prop where
  kept : ∀ l x, fs.node l = some x → fs'.node l = some x
  dirs : ∀ l x, fs'.node l = some x → fs.node l = some x ∨ fs.node l = none ∧ x = .dir

theorem Extends.refl (fs : FileTree ν) : Extends fs fs := ⟨fun _ _ h => h, fun _ _ h => .inl h⟩

theorem Extends.trans {fs'' : FileTree ν} (h : Extends fs fs') (h' : Extends fs' fs'') :
    Extends fs fs'' where
  kept l x hx := h'.kept l x (h.kept l x hx)
  dirs l x hx := by
    rcases h'.dirs l x hx with hold | ⟨hnone, hdir⟩
    · exact h.dirs l x hold
    · refine .inr ⟨?_, hdir⟩
      cases hl : fs.node l with
      | none => rfl
      | some y =>
        rw [h.kept l y hl] at hnone
        cases hnone

theorem Extends.ends (h : Extends fs fs') (hl : fs.Ends l) : fs'.Ends l := by
  rcases hl with ⟨i, hl⟩ | hl
  · exact .inl ⟨i, h.kept _ _ hl⟩
  · exact .inr (h.kept _ _ hl)

/-- A walk that leads somewhere goes on to lead there. -/
theorem Extends.walk {r : ℕ × List ν} (h : Extends fs fs') :
    fs.walk k d p = some r → fs'.walk k d p = some r := by
  refine fs.walk_induction (motive := fun k d p => fs.walk k d p = some r →
    fs'.walk k d p = some r) ?_ ?_ ?_ ?_ ?_ ?_ ?_ k d p
  · intro k d hw
    rwa [walk_nil] at hw ⊢
  · intro k d p ih hw
    rw [walk_up] at hw ⊢
    exact ih hw
  · intro k d n p hn ih hw
    rw [walk_dir hn] at hw
    rw [walk_dir (h.kept _ _ hn)]
    exact ih hw
  · intro k d n p a t hn ih hw
    rw [walk_link hn] at hw
    rw [walk_link (h.kept _ _ hn)]
    exact ih hw
  · intro d n p a t hn hw
    rw [walk_loop hn] at hw
    cases hw
  · intro k d n p hn hw
    rw [walk_none hn] at hw
    cases hw
  · intro k d n p hn hw
    rw [walk_ends hn] at hw
    rw [walk_ends (h.ends hn)]
    exact hw

/-- What is below a place where nothing was is a directory. -/
theorem Extends.below_none (h : Extends fs fs') {x : Node ν} (hd : fs.node d = Option.none)
    (hl : d <+: l) (hx : fs'.node l = some x) : x = .dir := by
  rcases h.dirs l x hx with hold | ⟨-, hdir⟩
  · obtain ⟨r, rfl⟩ := hl
    rcases List.eq_nil_or_concat r with rfl | ⟨r, n, rfl⟩
    · rw [List.append_nil] at hold
      rw [hd] at hold
      cases hold
    · have hdir : fs.node (d ++ r) = some .dir := by
        refine fs.rooted (n := n) ?_
        rw [List.append_assoc, ← List.concat_eq_append, hold]
        nofun
      rw [dir_of_isPrefix hdir (List.prefix_append d r)] at hd
      cases hd
  · exact hdir

/-- Names below a place where nothing was lead where they say. -/
theorem Extends.walk_below (h : Extends fs fs') {names : List ν} (hn : fs.node (d ++ [n]) = Option.none)
    (hw : fs'.walk k d ((n :: names).map .name) = some (k', l)) : l = d ++ n :: names := by
  have hall : ∀ (names r : List ν), fs'.walk k (d ++ n :: r) (names.map .name) = some (k', l) →
      l = d ++ n :: (r ++ names) := by
    intro names
    induction names with
    | nil =>
      intro r hw
      rw [List.map_nil, walk_nil] at hw
      cases hw
      rw [List.append_nil]
    | cons m names ih =>
      intro r hw
      have hplace : d ++ n :: r ++ [m] = d ++ n :: (r ++ [m]) := by simp
      rw [List.map_cons] at hw
      cases hx : fs'.node (d ++ n :: r ++ [m]) with
      | none =>
        rw [walk_none hx] at hw
        cases hw
      | some x =>
        have hdir : x = .dir := h.below_none hn (by simp) hx
        subst hdir
        rw [walk_dir hx, hplace] at hw
        rw [ih _ hw]
        simp
  rw [List.map_cons] at hw
  cases hx : fs'.node (d ++ [n]) with
  | none =>
    rw [walk_none hx] at hw
    cases hw
  | some x =>
    have hdir : x = .dir := h.below_none hn (List.prefix_refl _) hx
    subst hdir
    rw [walk_dir hx] at hw
    exact hall names [] hw

/-! ## Making a path -/

section
variable [DecidableEq ν] (links : ℕ) (refuses : List (PathStep ν) → Bool)

/-- Whether a path leads to a directory. -/
def isDir (fs : FileTree ν) (p : List (PathStep ν)) : Bool :=
  match fs.walk links [] p with
  | some (_, l) => decide (fs.node l = some .dir)
  | none => false

/-- Make one directory; `refuses` says which paths the system makes none for. -/
def createDir (fs : FileTree ν) (p : List (PathStep ν)) : PathStep ν → Option (FileTree ν)
  | .up => none
  | .name n =>
    match fs.walk links [] p with
    | none => none
    | some (_, d) =>
      if h : fs.node d = some .dir ∧ fs.node (d ++ [n]) = none then
        if refuses (p ++ [.name n]) then none else some (fs.mkdir d n h.1 h.2)
      else none

/-- Make a directory and all above it that are missing, its path given from the last step to the
    first: the tree that is left, and whether the directory is there. -/
def createDirAll (fs : FileTree ν) : List (PathStep ν) → FileTree ν × Bool
  | [] => (fs, true)
  | s :: above =>
    if fs.isDir links (s :: above).reverse then (fs, true)
    else
      match createDirAll fs above with
      | (fs', false) => (fs', false)
      | (fs', true) =>
        match fs'.createDir links refuses above.reverse s with
        | some made => (made, true)
        | none => (fs', fs'.isDir links (s :: above).reverse)

/-- The trees along a path whose directories are made where they are missing, step by step. -/
inductive Makes (fs : FileTree ν) : List (PathStep ν) → FileTree ν → Prop
  | start : Makes fs [] fs
  | there {p s fs'} (h : Makes fs p fs') (hdir : fs'.isDir links (p ++ [s])) : Makes fs (p ++ [s]) fs'
  | made {p s fs' made} (h : Makes fs p fs') (hmade : fs'.createDir links refuses p s = some made) :
      Makes fs (p ++ [s]) made

variable {links refuses} {s : PathStep ν} {made : FileTree ν}

theorem isDir_iff :
    fs.isDir links p = true ↔ ∃ k l, fs.walk links [] p = some (k, l) ∧ fs.node l = some .dir := by
  unfold isDir
  split
  · rename_i k l h
    simp [h]
  · rename_i h
    simp [h]

theorem isDir_of_isPrefix (hroot : fs.node [] = some .dir) (h : fs.isDir links q = true)
    (hp : p <+: q) : fs.isDir links p = true := by
  obtain ⟨r, rfl⟩ := hp
  by_cases hr : r = []
  · rwa [hr, List.append_nil] at h
  · obtain ⟨k, l, hw, -⟩ := isDir_iff.1 h
    obtain ⟨k', d, hp, hd, -⟩ := walk_append_some hroot hr hw
    exact isDir_iff.2 ⟨k', d, hp, hd⟩

theorem createDir_some (h : fs.createDir links refuses p s = some made) :
    ∃ n k d, ∃ hd : fs.node d = some .dir, ∃ hfree : fs.node (d ++ [n]) = none,
      s = .name n ∧ fs.walk links [] p = some (k, d) ∧ refuses (p ++ [s]) = false ∧
        made = fs.mkdir d n hd hfree := by
  cases s with
  | up => cases h
  | name n =>
    unfold createDir at h
    cases hw : fs.walk links [] p with
    | none =>
      rw [hw] at h
      cases h
    | some r =>
      obtain ⟨k, d⟩ := r
      simp only [hw] at h
      split_ifs at h with hfree hrefuses
      cases h
      exact ⟨n, k, d, hfree.1, hfree.2, rfl, rfl, by simpa using hrefuses, rfl⟩

theorem extends_mkdir {hd : fs.node d = some .dir} {hfree : fs.node (d ++ [n]) = none} :
    Extends fs (fs.mkdir d n hd hfree) where
  kept l x hx := by
    refine (Function.update_of_ne ?_ ..).trans hx
    rintro rfl
    rw [hfree] at hx
    cases hx
  dirs l x hx := by
    change Function.update fs.node (d ++ [n]) (some .dir) l = some x at hx
    by_cases hl : l = d ++ [n]
    · rw [hl, Function.update_self] at hx
      cases hx
      exact .inr ⟨hl ▸ hfree, rfl⟩
    · rw [Function.update_of_ne hl] at hx
      exact .inl hx

theorem node_mkdir {hd : fs.node d = some .dir} {hfree : fs.node (d ++ [n]) = none} :
    (fs.mkdir d n hd hfree).node (d ++ [n]) = some .dir := Function.update_self ..

theorem createDir_extends (h : fs.createDir links refuses p s = some made) : Extends fs made := by
  obtain ⟨n, k, d, hd, hfree, -, -, -, rfl⟩ := createDir_some h
  exact extends_mkdir

/-- What is made is a directory then, and was none. -/
theorem createDir_isDir (hroot : fs.node [] = some .dir)
    (h : fs.createDir links refuses p s = some made) :
    made.isDir links (p ++ [s]) = true ∧ fs.isDir links (p ++ [s]) = false := by
  have hext := createDir_extends h
  obtain ⟨n, k, d, hd, hfree, rfl, hw, -, rfl⟩ := createDir_some h
  refine ⟨isDir_iff.2 ⟨k, d ++ [n], ?_, node_mkdir⟩, ?_⟩
  · rw [walk_append_of_dir (hext.kept _ _ hroot) (hext.walk hw) (hext.kept _ _ hd),
      walk_dir node_mkdir, walk_nil]
  · unfold isDir
    rw [walk_append_of_dir hroot hw hd, walk_none hfree]

theorem Makes.extends (h : Makes links refuses fs p fs') : Extends fs fs' := by
  induction h with
  | start => exact .refl fs
  | there _ _ ih => exact ih
  | made _ hmade ih => exact ih.trans (createDir_extends hmade)

theorem Makes.isDir (hroot : fs.node [] = some .dir) (h : Makes links refuses fs p fs') :
    fs'.isDir links p = true := by
  cases h with
  | start => exact isDir_iff.2 ⟨links, [], walk_nil, hroot⟩
  | there _ hdir => exact hdir
  | made h hmade => exact (createDir_isDir (h.extends.kept _ _ hroot) hmade).1

/-- A path that leads to a directory is made by leaving all as it is. -/
theorem makes_of_isDir (hroot : fs.node [] = some .dir) (h : fs.isDir links p = true) :
    Makes links refuses fs p fs := by
  induction p using List.reverseRecOn with
  | nil => exact .start
  | append_singleton p s ih =>
    exact .there (ih (isDir_of_isPrefix hroot h (List.prefix_append p [s]))) h

/-- The last step of a path is there or is made. -/
theorem Makes.last (h : Makes links refuses fs (p ++ [s]) fs') :
    ∃ before, Makes links refuses fs p before ∧
      (fs' = before ∧ before.isDir links (p ++ [s]) = true ∨
        before.createDir links refuses p s = some fs') := by
  generalize hq : p ++ [s] = q at h
  cases h with
  | start => exact absurd hq (by simp)
  | there h hdir =>
    obtain ⟨rfl, hs⟩ := List.append_inj' hq rfl
    cases hs
    exact ⟨_, h, .inl ⟨rfl, hdir⟩⟩
  | made h hmade =>
    obtain ⟨rfl, hs⟩ := List.append_inj' hq rfl
    cases hs
    exact ⟨_, h, .inr hmade⟩

/-- A path is made in one way. -/
theorem Makes.unique {fs₁ fs₂ : FileTree ν} (hroot : fs.node [] = some .dir)
    (h₁ : Makes links refuses fs p fs₁) (h₂ : Makes links refuses fs p fs₂) : fs₁ = fs₂ := by
  induction p using List.reverseRecOn generalizing fs₁ fs₂ with
  | nil =>
    generalize hp : ([] : List (PathStep ν)) = p at h₁ h₂
    have hstart : ∀ {fs'}, Makes links refuses fs p fs' → fs' = fs := by
      intro fs' h
      cases h with
      | start => rfl
      | there => exact absurd hp (by simp)
      | made => exact absurd hp (by simp)
    rw [hstart h₁, hstart h₂]
  | append_singleton p s ih =>
    obtain ⟨before, hb, h₁⟩ := h₁.last
    obtain ⟨before', hb', h₂⟩ := h₂.last
    obtain rfl := ih hb hb'
    have hroot' := hb.extends.kept _ _ hroot
    rcases h₁ with ⟨rfl, hdir⟩ | hmade <;> rcases h₂ with ⟨rfl, hdir'⟩ | hmade'
    · rfl
    · rw [(createDir_isDir hroot' hmade').2] at hdir
      cases hdir
    · rw [(createDir_isDir hroot' hmade).2] at hdir'
      cases hdir'
    · exact Option.some.inj (hmade.symm.trans hmade')

/-- The start of a path is made on the way. -/
theorem Makes.of_isPrefix (h : Makes links refuses fs q fs') (hp : p <+: q) :
    ∃ before, Makes links refuses fs p before ∧ Extends before fs' := by
  obtain ⟨r, rfl⟩ := hp
  induction r using List.reverseRecOn generalizing fs' with
  | nil => exact ⟨fs', by simpa using h, .refl fs'⟩
  | append_singleton r s ih =>
    rw [← List.append_assoc] at h
    obtain ⟨before, hb, hlast⟩ := h.last
    obtain ⟨first, hfirst, hext⟩ := ih hb
    refine ⟨first, hfirst, hext.trans ?_⟩
    rcases hlast with ⟨rfl, -⟩ | hmade
    · exact .refl _
    · exact createDir_extends hmade

/-- What making a path leaves: what its steps make, as far as they can be made. -/
structure Made (links : ℕ) (refuses : List (PathStep ν) → Bool) (fs : FileTree ν)
    (p : List (PathStep ν)) (r : FileTree ν × Bool) : Prop where
  sound : ∃ q, q <+: p ∧ Makes links refuses fs q r.1
  whole : r.2 = true → Makes links refuses fs p r.1
  complete : ∀ q fs₁, q <+: p → Makes links refuses fs q fs₁ →
    Extends fs₁ r.1 ∧ (q = p → r = (fs₁, true))

theorem createDirAll_made (hroot : fs.node [] = some .dir) (above : List (PathStep ν)) :
    Made links refuses fs above.reverse (fs.createDirAll links refuses above) := by
  have hwhole : ∀ {p fs'}, Makes links refuses fs p fs' → Made links refuses fs p (fs', true) := by
    intro p fs' h
    refine ⟨⟨p, List.prefix_refl p, h⟩, fun _ => h, fun q fs₁ hq hfs₁ => ⟨?_, ?_⟩⟩
    · obtain ⟨before, hb, hext⟩ := h.of_isPrefix hq
      exact hb.unique hroot hfs₁ ▸ hext
    · rintro rfl
      rw [hfs₁.unique hroot h]
  induction above with
  | nil => exact hwhole .start
  | cons s above ih =>
    rw [createDirAll]
    split_ifs with hdir
    · exact hwhole (makes_of_isDir hroot hdir)
    rw [List.reverse_cons] at hdir ⊢
    generalize fs.createDirAll links refuses above = r at ih
    -- nothing is made of the last step where the steps before it cannot be made
    have hstuck : ∀ {fs'}, (∀ fs₁, ¬Makes links refuses fs (above.reverse ++ [s]) fs₁) →
        r.1 = fs' → Made links refuses fs (above.reverse ++ [s]) (fs', false) := by
      rintro fs' hnone rfl
      obtain ⟨q, hq, hmakes⟩ := ih.sound
      refine ⟨⟨q, hq.trans (List.prefix_append _ _), hmakes⟩, nofun, fun q fs₁ hq hfs₁ => ?_⟩
      rcases (List.prefix_concat_iff).1 hq with rfl | hq
      · exact absurd hfs₁ (hnone fs₁)
      · refine ⟨(ih.complete q fs₁ hq hfs₁).1, ?_⟩
        rintro rfl
        exact absurd hfs₁ (hnone fs₁)
    obtain ⟨fs', ok⟩ := r
    cases ok with
    | false =>
      refine hstuck (fun fs₁ h => ?_) rfl
      obtain ⟨before, hb, -⟩ := h.last
      cases (ih.complete _ _ (List.prefix_refl _) hb).2 rfl
    | true =>
      have habove : Makes links refuses fs above.reverse fs' := ih.whole rfl
      cases hmade : fs'.createDir links refuses above.reverse s with
      | some made =>
        simp only [hmade]
        exact hwhole (habove.made hmade)
      | none =>
        cases hthere : fs'.isDir links (above.reverse ++ [s]) with
        | true =>
          simp only [hmade, hthere]
          exact hwhole (habove.there hthere)
        | false =>
          simp only [hmade, hthere]
          refine hstuck (fun fs₁ h => ?_) rfl
          obtain ⟨before, hb, hlast⟩ := h.last
          obtain rfl := hb.unique hroot habove
          rcases hlast with ⟨-, h⟩ | h
          · rw [hthere] at h
            cases h
          · rw [hmade] at h
            cases h

end

end FileTree

end Lib
