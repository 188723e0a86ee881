/-
  File trees of a Unix system: directories, files by inode and symbolic links; where a
  path leads, and the changes that the system's calls make.
-/
import Mathlib.Data.List.Infix
import Mathlib.Data.List.Nodup
import Mathlib.Data.List.Pairwise
import Mathlib.Logic.Function.Basic

namespace Lib

/-- One step of a path. -/
inductive PathStep (ν : Type) where
  | up
  | name (n : ν)
  deriving DecidableEq

/-- What lies at a place of a tree. -/
inductive Node (ν : Type) where
  | dir
  | file (inode : ℕ)
  /-- A symbolic link, from the root of the tree or from the directory it lies in. -/
  | link (absolute : Bool) (target : List (PathStep ν))
  /-- A pipe, a socket or a device. -/
  | special
  deriving DecidableEq

/-- What an inode holds, and how many times it was written to. -/
structure Contents where
  bytes : List UInt8
  writes : ℕ

/-- A tree of named entries; a place is the list of the names that lead to it. -/
structure FileTree (ν : Type) where
  node : List ν → Option (Node ν)
  data : ℕ → Contents
  /-- The first inode that was never allocated. -/
  unused : ℕ
  used : ∀ {l i}, node l = some (.file i) → i < unused
  /-- Whatever is named lies in a directory. -/
  rooted : ∀ {d n}, node (d ++ [n]) ≠ none → node d = some .dir

namespace FileTree

variable {ν : Type}

/-- Neither a link nor followed like one. -/
def NoLink (fs : FileTree ν) (l : List ν) : Prop := ∀ a t, fs.node l ≠ some (.link a t)

/-- Inside a directory, and not the directory itself. -/
def Below (d l : List ν) : Prop := d <+: l ∧ d ≠ l

theorem below_append {d q : List ν} (hq : q ≠ []) : Below d (d ++ q) :=
  ⟨List.prefix_append d q, fun h => hq (List.append_right_eq_self.1 h.symm)⟩

theorem Below.of_isPrefix {d l l' : List ν} (h : Below d l) (hl : l <+: l') : Below d l' := by
  refine ⟨h.1.trans hl, ?_⟩
  rintro rfl
  exact h.2 (h.1.eq_of_length (le_antisymm h.1.length_le hl.length_le))

/-! ## Where a path leads -/

/-- `Leads follow k d p l`: from the directory `d` the path `p` leads to the place `l`, with at
    most `k` links followed on the way; a link in the last step is followed if `follow`. There need
    not be anything at `l`. -/
inductive Leads (fs : FileTree ν) (follow : Bool) : ℕ → List ν → List (PathStep ν) → List ν → Prop
  | here {k d} : Leads fs follow k d [] d
  | up {k d p l} (h : Leads fs follow k d.dropLast p l) : Leads fs follow k d (.up :: p) l
  | down {k d n p l} (hdir : fs.node (d ++ [n]) = some .dir)
      (h : Leads fs follow k (d ++ [n]) p l) : Leads fs follow k d (.name n :: p) l
  | last {k d n} (h : follow = true → fs.NoLink (d ++ [n])) :
      Leads fs follow k d [.name n] (d ++ [n])
  | link {k d n p a t l} (hlink : fs.node (d ++ [n]) = some (.link a t))
      (hp : p ≠ [] ∨ follow = true)
      (h : Leads fs follow k (if a then [] else d) (t ++ p) l) :
      Leads fs follow (k + 1) d (.name n :: p) l

variable {fs fs' : FileTree ν}

/-- Where no link is met, a path of names leads where it says. -/
theorem Leads.eq_append {follow : Bool} {k : ℕ} {d q l : List ν}
    (h : fs.Leads follow k d (q.map .name) l)
    (hparents : ∀ p, p ≠ [] → p <+: q → p ≠ q → fs.NoLink (d ++ p))
    (hlast : follow = true → fs.NoLink (d ++ q)) : l = d ++ q := by
  induction q generalizing d with
  | nil =>
    cases h
    exact (List.append_nil _).symm
  | cons n q ih =>
    have hcons : ∀ p, d ++ [n] ++ p = d ++ n :: p := fun p => (List.append_cons d n p).symm
    rw [List.map_cons] at h
    generalize hrest : q.map PathStep.name = rest at h
    cases h with
    | down hdir h =>
      subst hrest
      rw [ih h (fun p hp hq hne => ?_) fun hf => ?_, hcons]
      · rw [hcons]
        exact hparents (n :: p) (List.cons_ne_nil n p) (List.cons_prefix_cons.2 ⟨rfl, hq⟩)
          fun he => hne (List.cons.inj he).2
      · rw [hcons]
        exact hlast hf
    | last _ => rw [List.map_eq_nil_iff.1 hrest]
    | link hlink hp _ =>
      -- the link would stand at one of the places that are none
      by_cases hq : q = []
      · subst hq
        exact absurd hlink (hlast (hp.resolve_left fun hne => hne hrest.symm) _ _)
      · exact absurd hlink
          (hparents [n] (List.cons_ne_nil n []) (by simp) (by simp [Ne.symm hq]) _ _)

/-- A path leads to one place. -/
theorem Leads.unique {follow : Bool} {k k' : ℕ} {d l l' : List ν} {p : List (PathStep ν)}
    (h : fs.Leads follow k d p l) (h' : fs.Leads follow k' d p l') : l = l' := by
  induction h generalizing k' with
  | here =>
    cases h'
    rfl
  | up _ ih =>
    cases h' with
    | up h' => exact ih h'
  | down hdir h ih =>
    cases h' with
    | down _ h' => exact ih h'
    | last _ =>
      cases h
      rfl
    | link hlink _ _ => cases hdir.symm.trans hlink
  | last hfollow =>
    cases h' with
    | down _ h' =>
      cases h'
      rfl
    | last _ => rfl
    | link hlink hp _ => exact absurd hlink (hfollow (hp.resolve_left fun h => h rfl) _ _)
  | link hlink hp _ ih =>
    cases h' with
    | down hdir _ => cases hdir.symm.trans hlink
    | last hfollow => exact absurd hlink (hfollow (hp.resolve_left fun h => h rfl) _ _)
    | link hlink' _ h' =>
      cases hlink.symm.trans hlink'
      exact ih h'

/-- Where there is no link at its end, following it makes no difference. -/
theorem Leads.followed {k : ℕ} {d l : List ν} {p : List (PathStep ν)}
    (h : fs.Leads false k d p l) (hl : fs.NoLink l) : fs.Leads true k d p l := by
  induction h with
  | here => exact .here
  | up _ ih => exact .up (ih hl)
  | down hdir _ ih => exact .down hdir (ih hl)
  | last _ => exact .last fun _ => hl
  | link hlink hp _ ih => exact .link hlink (.inl (hp.resolve_right nofun)) (ih hl)

/-! ## Changes -/

/-- What is below something that is no directory is nothing. -/
theorem node_eq_none {d : List ν} {n : ν} (h : fs.node d ≠ some .dir) : fs.node (d ++ [n]) = none :=
  Classical.by_contradiction fun hne => h (fs.rooted hne)

/-- Write to an inode. -/
def rewrite (fs : FileTree ν) (i : ℕ) (bytes : List UInt8) : FileTree ν where
  node := fs.node
  data := Function.update fs.data i ⟨bytes, (fs.data i).writes + 1⟩
  unused := fs.unused
  used := fs.used
  rooted := fs.rooted

/-- Take entries out, each with all that lies in it. -/
def prune (fs : FileTree ν) (gone : List ν → Bool)
    (hgone : ∀ d n, gone d = true → fs.node (d ++ [n]) ≠ none → gone (d ++ [n]) = true) :
    FileTree ν where
  node l := if gone l then none else fs.node l
  data := fs.data
  unused := fs.unused
  used {l i} h := by
    by_cases hl : gone l = true
    · simp [hl] at h
    · exact fs.used (by simpa [hl] using h)
  rooted {d n} h := by
    by_cases hn : gone (d ++ [n]) = true
    · simp [hn] at h
    · have hnode : fs.node (d ++ [n]) ≠ none := by simpa [hn] using h
      by_cases hd : gone d = true
      · exact absurd (hgone d n hd hnode) hn
      · simpa [hd] using fs.rooted hnode

section
variable [DecidableEq ν]

/-- Take out an entry that is no directory. -/
def unlink (fs : FileTree ν) (l : List ν) (hl : fs.node l ≠ some .dir) : FileTree ν :=
  fs.prune (fun l' => decide (l' = l)) fun d n hd hn => by
    rw [decide_eq_true_iff] at hd
    subst hd
    exact absurd (node_eq_none hl) hn

/-- Name something in a directory where nothing has the name. -/
def insert (fs : FileTree ν) (d : List ν) (n : ν) (x : Node ν) (hd : fs.node d = some .dir)
    (hfree : fs.node (d ++ [n]) = none) (hx : ∀ i, x = .file i → i < fs.unused) : FileTree ν where
  node := Function.update fs.node (d ++ [n]) (some x)
  data := fs.data
  unused := fs.unused
  used {l i} h := by
    rw [Function.update_apply] at h
    by_cases hl : l = d ++ [n]
    · rw [if_pos hl] at h
      exact hx i (Option.some.inj h)
    · rw [if_neg hl] at h
      exact fs.used h
  rooted {d' n'} h := by
    rw [Function.update_apply] at h
    have hdir : fs.node d' = some .dir := by
      by_cases hl : d' ++ [n'] = d ++ [n]
      · rw [(List.append_inj' hl rfl).1]
        exact hd
      · rw [if_neg hl] at h
        exact fs.rooted h
    rw [Function.update_apply, if_neg, hdir]
    rintro rfl
    rw [hfree] at hdir
    cases hdir

/-- Allocate an inode. -/
def alloc (fs : FileTree ν) (bytes : List UInt8) : FileTree ν where
  node := fs.node
  data := Function.update fs.data fs.unused ⟨bytes, 0⟩
  unused := fs.unused + 1
  used h := (fs.used h).trans (Nat.lt_succ_self _)
  rooted := fs.rooted

/-- A new file. -/
def create (fs : FileTree ν) (d : List ν) (n : ν) (bytes : List UInt8)
    (hd : fs.node d = some .dir) (hfree : fs.node (d ++ [n]) = none) : FileTree ν :=
  (fs.alloc bytes).insert d n (.file fs.unused) hd hfree fun i hi => by
    cases hi
    exact Nat.lt_succ_self _

/-- A new directory. -/
def mkdir (fs : FileTree ν) (d : List ν) (n : ν) (hd : fs.node d = some .dir)
    (hfree : fs.node (d ++ [n]) = none) : FileTree ν :=
  fs.insert d n .dir hd hfree nofun

end

/-! ## What a change leaves alone -/

/-- Only what is named below a directory is changed, and nothing that some inodes hold. -/
structure Confined (R : List ν) (P : ℕ → Prop) (fs fs' : FileTree ν) : Prop where
  outside : ∀ l, ¬Below R l → fs'.node l = fs.node l
  contents : ∀ i, P i → fs'.data i = fs.data i

/-- Whatever a place holds afterwards it held before, unless it is a directory or a new file. -/
structure Grows (fs fs' : FileTree ν) : Prop where
  unused : fs.unused ≤ fs'.unused
  node : ∀ l x, fs'.node l = some x → fs.node l = some x ∨ x = .dir ∨
    ∃ i, x = .file i ∧ fs.unused ≤ i

section
variable {R : List ν} {P : ℕ → Prop}

theorem Confined.refl (fs : FileTree ν) : Confined R P fs fs := ⟨fun _ _ => rfl, fun _ _ => rfl⟩

theorem Confined.trans {fs'' : FileTree ν} (h : Confined R P fs fs') (h' : Confined R P fs' fs'') :
    Confined R P fs fs'' where
  outside l hl := (h'.outside l hl).trans (h.outside l hl)
  contents i hi := (h'.contents i hi).trans (h.contents i hi)

theorem Grows.refl (fs : FileTree ν) : Grows fs fs := ⟨le_rfl, fun _ _ h => .inl h⟩

/-- No link is made. -/
theorem Grows.noLink {l : List ν} (h : Grows fs fs') (hl : fs.NoLink l) : fs'.NoLink l := by
  intro a t hnode
  rcases h.node l _ hnode with hold | hdir | ⟨i, hfile, -⟩
  · exact hl a t hold
  · cases hdir
  · cases hfile

theorem confined_prune {gone : List ν → Bool} {hgone}
    (h : ∀ l, gone l = true → Below R l) : Confined R P fs (fs.prune gone hgone) where
  outside l hl := if_neg fun hl' => hl (h l hl')
  contents _ _ := rfl

theorem grows_prune {gone : List ν → Bool} {hgone} : Grows fs (fs.prune gone hgone) where
  unused := le_rfl
  node l x h := by
    by_cases hl : gone l = true
    · simp [prune, hl] at h
    · exact .inl (by simpa [prune, hl] using h)

theorem grows_rewrite {i : ℕ} {bytes : List UInt8} : Grows fs (fs.rewrite i bytes) :=
  ⟨le_rfl, fun _ _ h => .inl h⟩

/-- To write to an inode is confined when the inode is not one of those. -/
theorem confined_rewrite_iff {i : ℕ} {bytes : List UInt8} :
    Confined R P fs (fs.rewrite i bytes) ↔ ¬P i := by
  constructor
  · intro h hi
    have hwrites := congrArg Contents.writes (h.contents i hi)
    simp [rewrite] at hwrites
  · intro hi
    refine ⟨fun _ _ => rfl, fun j hj => Function.update_of_ne ?_ ..⟩
    rintro rfl
    exact hi hj

variable [DecidableEq ν] {d : List ν} {n : ν} {bytes : List UInt8}
  {hd : fs.node d = some .dir} {hfree : fs.node (d ++ [n]) = none}

theorem confined_unlink {l : List ν} {hl : fs.node l ≠ some .dir} (h : Below R l) :
    Confined R P fs (fs.unlink l hl) :=
  confined_prune fun _ hl' => of_decide_eq_true hl' ▸ h

theorem grows_unlink {l : List ν} {hl : fs.node l ≠ some .dir} : Grows fs (fs.unlink l hl) :=
  grows_prune

theorem unlink_self {l : List ν} {hl : fs.node l ≠ some .dir} : (fs.unlink l hl).node l = none := by
  simp [unlink, prune]

theorem confined_insert {x : Node ν} {hx} (h : Below R (d ++ [n])) :
    Confined R P fs (fs.insert d n x hd hfree hx) where
  outside l hl := Function.update_of_ne (fun he => hl (by rw [he]; exact h)) ..
  contents _ _ := rfl

theorem grows_mkdir : Grows fs (fs.mkdir d n hd hfree) where
  unused := le_rfl
  node l x h := by
    change Function.update fs.node (d ++ [n]) (some .dir) l = some x at h
    rw [Function.update_apply] at h
    by_cases hl : l = d ++ [n]
    · rw [if_pos hl] at h
      exact .inr (.inl (Option.some.inj h).symm)
    · rw [if_neg hl] at h
      exact .inl h

/-- A new file is confined when it is named below the directory; its inode was nobody's. -/
theorem confined_create (h : Below R (d ++ [n])) (hP : ∀ i, P i → i < fs.unused) :
    Confined R P fs (fs.create d n bytes hd hfree) where
  outside l hl := Function.update_of_ne (fun he => hl (by rw [he]; exact h)) ..
  contents i hi := Function.update_of_ne (hP i hi).ne ..

theorem below_of_confined_create (h : Confined R P fs (fs.create d n bytes hd hfree)) :
    Below R (d ++ [n]) := by
  refine Classical.by_contradiction fun hn => ?_
  have hnode := h.outside _ hn
  rw [hfree] at hnode
  simp [create, insert] at hnode

theorem grows_create : Grows fs (fs.create d n bytes hd hfree) where
  unused := Nat.le_succ _
  node l x h := by
    change Function.update fs.node (d ++ [n]) (some (.file fs.unused)) l = some x at h
    rw [Function.update_apply] at h
    by_cases hl : l = d ++ [n]
    · rw [if_pos hl] at h
      exact .inr (.inr ⟨_, (Option.some.inj h).symm, le_rfl⟩)
    · rw [if_neg hl] at h
      exact .inl h

end

/-! ## What a change alters -/

/-- Only the entry at the place `w` is replaced, if any, by nothing or by a file that is new or one
    of some; only some contents are written to; and directories are made at some places. -/
structure Alters (w : Option (List ν)) (P Q : ℕ → Prop) (D : List ν → Prop) (fs fs' : FileTree ν) :
    Prop where
  unused : fs.unused ≤ fs'.unused
  kept : ∀ l x, fs.node l = some x → w ≠ some l → fs'.node l = some x
  made : ∀ l x, fs'.node l = some x → fs.node l = some x ∨ x = .dir ∧ D l ∨
    w = some l ∧ ∃ i, x = .file i ∧ (fs.unused ≤ i ∨ P i)
  data : ∀ i, i < fs.unused → ¬Q i → fs'.data i = fs.data i

section
variable {w : Option (List ν)} {P Q : ℕ → Prop} {D : List ν → Prop}

theorem Alters.refl (fs : FileTree ν) : Alters w P Q D fs fs :=
  ⟨le_rfl, fun _ _ h _ => h, fun _ _ h => .inl h, fun _ _ _ => rfl⟩

theorem alters_rewrite {i : ℕ} {bytes : List UInt8} (hi : Q i) : Alters w P Q D fs (fs.rewrite i bytes) where
  unused := le_rfl
  kept _ _ h _ := h
  made _ _ h := .inl h
  data j _ hj := by
    refine Function.update_of_ne ?_ ..
    rintro rfl
    exact hj hi

/-- No link is made. -/
theorem Alters.noLink {l : List ν} (ha : Alters w P Q D fs fs') (h : fs.NoLink l) : fs'.NoLink l := by
  intro a t hnode
  rcases ha.made l _ hnode with hold | ⟨hdir, -⟩ | ⟨-, i, hfile, -⟩
  · exact h a t hold
  · cases hdir
  · cases hfile

/-- An entry is neither replaced nor made. -/
theorem Alters.node_eq {l : List ν} (ha : Alters w P Q D fs fs') (hw : w ≠ some l) (hD : ¬D l) :
    fs'.node l = fs.node l := by
  cases hnode : fs.node l with
  | some x => exact ha.kept l x hnode hw
  | none =>
    cases hnode' : fs'.node l with
    | none => rfl
    | some x =>
      rcases ha.made l x hnode' with hold | ⟨-, hdir⟩ | ⟨hl, -⟩
      · rw [hnode] at hold
        cases hold
      · exact absurd hdir hD
      · exact absurd hl hw

/-- What is at a place that is not replaced, and leads on, still does. -/
theorem Leads.alters {k : ℕ} {d l : List ν} {p : List (PathStep ν)} (h : fs.Leads false k d p l)
    (ha : Alters w P Q D fs fs')
    (hw : ∀ l, w = some l → fs.node l ≠ some .dir ∧ fs.NoLink l) : fs'.Leads false k d p l := by
  have hdir : ∀ l, fs.node l = some .dir → fs'.node l = some .dir := fun l hl =>
    ha.kept l _ hl fun he => (hw l he).1 hl
  have hlink : ∀ l a t, fs.node l = some (.link a t) → fs'.node l = some (.link a t) :=
    fun l a t hl => ha.kept l _ hl fun he => (hw l he).2 a t hl
  induction h with
  | here => exact .here
  | up _ ih => exact .up ih
  | down hd _ ih => exact .down (hdir _ hd) ih
  | last hlast => exact .last nofun
  | link hl hp _ ih => exact .link (hlink _ _ _ hl) hp ih

variable [DecidableEq ν] {d : List ν} {n : ν} {bytes : List UInt8}
  {hd : fs.node d = some .dir} {hfree : fs.node (d ++ [n]) = none}

theorem alters_unlink {l : List ν} {hl : fs.node l ≠ some .dir} :
    Alters (some l) P Q D fs (fs.unlink l hl) where
  unused := le_rfl
  kept l' x h hne := by
    have hl' : l' ≠ l := fun he => hne (congrArg some he.symm)
    simpa [unlink, prune, hl'] using h
  made l' x h := by
    by_cases hl' : l' = l
    · simp [unlink, prune, hl'] at h
    · exact .inl (by simpa [unlink, prune, hl'] using h)
  data _ _ _ := rfl

theorem alters_mkdir (hD : D (d ++ [n])) : Alters w P Q D fs (fs.mkdir d n hd hfree) where
  unused := le_rfl
  kept l x h _ := by
    refine (Function.update_of_ne ?_ ..).trans h
    rintro rfl
    rw [hfree] at h
    cases h
  made l x h := by
    change Function.update fs.node (d ++ [n]) (some .dir) l = some x at h
    rw [Function.update_apply] at h
    split_ifs at h with hl
    · rw [hl]
      exact .inr (.inl ⟨(Option.some.inj h).symm, hD⟩)
    · exact .inl h
  data _ _ _ := rfl

theorem alters_create : Alters (some (d ++ [n])) P Q D fs (fs.create d n bytes hd hfree) where
  unused := Nat.le_succ _
  kept l x h hne := (Function.update_of_ne (fun he => hne (congrArg some he.symm)) ..).trans h
  made l x h := by
    change Function.update fs.node (d ++ [n]) (some (.file fs.unused)) l = some x at h
    rw [Function.update_apply] at h
    split_ifs at h with hl
    · exact .inr (.inr ⟨congrArg some hl.symm, _, (Option.some.inj h).symm, .inl le_rfl⟩)
    · exact .inl h
  data i hi _ := Function.update_of_ne hi.ne ..

/-- A second name for a file. -/
theorem alters_insert {i : ℕ} {hx} (hi : P i) :
    Alters (some (d ++ [n])) P Q D fs (fs.insert d n (.file i) hd hfree hx) where
  unused := le_rfl
  kept l x h hne := (Function.update_of_ne (fun he => hne (congrArg some he.symm)) ..).trans h
  made l x h := by
    change Function.update fs.node (d ++ [n]) (some (.file i)) l = some x at h
    rw [Function.update_apply] at h
    split_ifs at h with hl
    · exact .inr (.inr ⟨congrArg some hl.symm, i, (Option.some.inj h).symm, .inr hi⟩)
    · exact .inl h
  data _ _ _ := rfl

end

/-- What lies in a directory lies in directories all the way. -/
theorem dir_of_isPrefix {l d : List ν} (h : fs.node l = some .dir) (hd : d <+: l) :
    fs.node d = some .dir := by
  obtain ⟨r, rfl⟩ := hd
  induction r using List.reverseRecOn with
  | nil => simpa using h
  | append_singleton r n ih =>
    refine ih (fs.rooted (n := n) ?_)
    rw [List.append_assoc, h]
    nofun

/-- What is on the way to something is a directory. -/
theorem dir_above {l p : List ν} (hl : fs.node l ≠ none) (hp : p <+: l) (hne : p ≠ l) :
    fs.node p = some .dir := by
  rcases List.eq_nil_or_concat' l with rfl | ⟨d, n, rfl⟩
  · exact absurd (List.prefix_nil.1 hp) hne
  · rcases List.prefix_concat_iff.1 hp with rfl | hp
    · exact absurd rfl hne
    · exact dir_of_isPrefix (fs.rooted hl) hp

/-- Names that lead to a directory one after another. -/
theorem leads_dir {follow : Bool} {k : ℕ} {ns d : List ν} (h : fs.node (d ++ ns) = some .dir) :
    fs.Leads follow k d (ns.map .name) (d ++ ns) := by
  induction ns generalizing d with
  | nil =>
    rw [List.append_nil]
    exact .here
  | cons n ns ih =>
    rw [List.append_cons] at h ⊢
    exact .down (dir_of_isPrefix h (List.prefix_append _ _)) (ih h)

/-- Names lead to what lies at their end. -/
theorem leads_names {follow : Bool} {k : ℕ} {ns d : List ν} (hns : ns ≠ [])
    (h : fs.node (d ++ ns) ≠ none) (hlast : follow = true → fs.NoLink (d ++ ns)) :
    fs.Leads follow k d (ns.map .name) (d ++ ns) := by
  induction ns generalizing d with
  | nil => exact absurd rfl hns
  | cons n ns ih =>
    by_cases hnil : ns = []
    · subst hnil
      exact .last hlast
    · have hdir : fs.node (d ++ [n]) = some .dir :=
        dir_above h ⟨ns, (List.append_cons d n ns).symm⟩ (by simp [Ne.symm hnil])
      rw [List.append_cons] at h hlast ⊢
      exact .down hdir (ih hnil h hlast)

/-! ## Trees of given files -/

/-- No path of a list leads to another, or through it. -/
def Diverge (paths : List (List ν)) : Prop := paths.Pairwise fun a b => ¬a <+: b ∧ ¬b <+: a

theorem diverge_map_append {d : List ν} {paths : List (List ν)} :
    Diverge (paths.map fun p => d ++ p) ↔ Diverge paths := by
  simp only [Diverge, List.pairwise_map, List.prefix_append_right_inj]

theorem Diverge.eq_of_isPrefix {paths : List (List ν)} (h : Diverge paths) {a b : List ν}
    (ha : a ∈ paths) (hb : b ∈ paths) (hab : a <+: b) : a = b := by
  by_contra hne
  have hsymm : Std.Symm fun a b : List ν => ¬a <+: b ∧ ¬b <+: a := ⟨fun _ _ h => ⟨h.2, h.1⟩⟩
  exact (List.Pairwise.forall h ha hb hne).1 hab

theorem Diverge.nodup {paths : List (List ν)} (h : Diverge paths) : paths.Nodup := by
  refine List.Pairwise.imp ?_ h
  rintro a b ⟨hab, -⟩ rfl
  exact hab List.prefix_rfl

section
variable [DecidableEq ν] (files : List (List ν × List UInt8))

/-- Files at places none of which leads through another. -/
def layOut (h : Diverge (files.map Prod.fst)) : FileTree ν where
  node l :=
    if files.any (fun f => f.1 = l) then some (.file (files.findIdx fun f => f.1 = l))
    else if l = [] ∨ files.any (fun f => l <+: f.1) then some .dir
    else none
  data i := ⟨files[i]?.elim [] Prod.snd, 0⟩
  unused := files.length
  used {l i} hl := by
    split_ifs at hl with hfile
    · cases hl
      exact List.findIdx_lt_length.2 (List.any_eq_true.1 hfile)
    · cases hl
  rooted {d n} hdn := by
    have hbelow : ∃ f ∈ files, d ++ [n] <+: f.1 := by
      split_ifs at hdn with hfile hdir
      · obtain ⟨f, hf, he⟩ := List.any_eq_true.1 hfile
        exact ⟨f, hf, by rw [of_decide_eq_true he]⟩
      · simp only [List.append_eq_nil_iff, List.cons_ne_nil, and_false, false_or] at hdir
        obtain ⟨f, hf, he⟩ := List.any_eq_true.1 hdir
        exact ⟨f, hf, of_decide_eq_true he⟩
      · exact absurd rfl hdn
    obtain ⟨f, hf, hpre⟩ := hbelow
    have hd : d <+: f.1 := (List.prefix_append d [n]).trans hpre
    rw [if_neg, if_pos]
    · exact .inr (List.any_eq_true.2 ⟨f, hf, by simpa using hd⟩)
    -- a file at `d` would be in the way of the one below it
    · intro hfile
      obtain ⟨g, hg, he⟩ := List.any_eq_true.1 hfile
      obtain rfl := of_decide_eq_true he
      have heq := h.eq_of_isPrefix (List.mem_map_of_mem hg) (List.mem_map_of_mem hf) hd
      rw [← heq] at hpre
      have hle := hpre.length_le
      rw [List.length_append, List.length_singleton] at hle
      omega

/-- Every file is where it was laid. -/
theorem layOut_node (h : Diverge (files.map Prod.fst)) {f : List ν × List UInt8} (hf : f ∈ files) :
    ∃ i, (layOut files h).node f.1 = some (.file i) ∧ ((layOut files h).data i).bytes = f.2 := by
  have hany : files.any (fun g => g.1 = f.1) = true :=
    List.any_eq_true.2 ⟨f, hf, decide_eq_true rfl⟩
  have hlt : files.findIdx (fun g => g.1 = f.1) < files.length :=
    List.findIdx_lt_length.2 ⟨f, hf, decide_eq_true rfl⟩
  have hnode : (layOut files h).node f.1 = some (.file (files.findIdx fun g => g.1 = f.1)) :=
    if_pos hany
  refine ⟨_, hnode, ?_⟩
  have hfound : files[files.findIdx fun g => g.1 = f.1].1 = f.1 :=
    of_decide_eq_true (List.findIdx_getElem (w := hlt))
  have hsame : files[files.findIdx fun g => g.1 = f.1] = f :=
    List.inj_on_of_nodup_map h.nodup (List.getElem_mem hlt) hf hfound
  change (files[files.findIdx fun g => g.1 = f.1]?.elim [] Prod.snd) = f.2
  rw [List.getElem?_eq_getElem hlt, Option.elim_some, hsame]

end

end FileTree

end Lib
