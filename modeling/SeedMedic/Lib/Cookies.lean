/-
  Cookies: what a browser keeps of a header that sets one, what it sends of those it keeps, and how
  one of them is found again in what was sent.
-/
import SeedMedic.Lib.Text

namespace Lib

/-- The parts of a text in front of and behind the first of a separator. -/
def splitOnce {α : Type} [DecidableEq α] (c : α) : List α → Option (List α × List α)
  | [] => none
  | a :: l => if a = c then some ([], l) else (splitOnce c l).map fun p => (a :: p.1, p.2)

theorem splitOnce_append {α : Type} [DecidableEq α] {c : α} {s : List α} (h : c ∉ s) (t : List α) :
    splitOnce c (s ++ c :: t) = some (s, t) := by
  induction s with
  | nil => simp [splitOnce]
  | cons a s ih =>
    rw [List.mem_cons, not_or] at h
    simp [splitOnce, Ne.symm h.1, ih h.2]

/-- A cookie, without anything that would end it or that is lost around it. -/
structure Cookie (space : Char → Bool) where
  name : List Char
  value : List Char
  named : ∀ c ∈ name, c ≠ '=' ∧ c ≠ ';' ∧ space c = false
  valued : ∀ c ∈ value, c ≠ ';' ∧ space c = false

namespace Cookie

variable {space : Char → Bool}

def text (cookie : Cookie space) : List Char := cookie.name ++ '=' :: cookie.value

/-- What a browser sends of the cookies it keeps. -/
def header : List (Cookie space) → List Char
  | [] => []
  | cookie :: jar => cookie.text ++ if jar.isEmpty then [] else ';' :: ' ' :: header jar

variable (space) in
/-- The name and the value in a header that sets a cookie; its attributes are behind them. -/
def received (set : List Char) : Option (List Char × List Char) :=
  splitOnce '=' (stripEnds space (set.takeWhile fun c => c ≠ ';'))

variable (space) in
/-- The value of the first cookie of a name in what was sent. -/
def find (name raw : List Char) : Option (List Char) :=
  (raw.splitOn ';').findSome? fun pair =>
    (splitOnce '=' (stripEnds space pair)).bind fun p => if p.1 = name then some p.2 else none

section
variable {cookie : Cookie space} {jar : List (Cookie space)} {name raw : List Char}

theorem separator_not_mem_text (cookie : Cookie space) : ';' ∉ cookie.text := by
  intro h
  rcases List.mem_append.1 h with hname | hvalue
  · exact (cookie.named _ hname).2.1 rfl
  · rcases List.mem_cons.1 hvalue with heq | hvalue
    · cases heq
    · exact (cookie.valued _ hvalue).1 rfl

theorem stripEnds_text (hequals : space '=' = false) (cookie : Cookie space) :
    stripEnds space cookie.text = cookie.text := by
  refine stripEnds_of_forall_not fun c hc => ?_
  rcases List.mem_append.1 hc with hname | hvalue
  · exact (cookie.named c hname).2.2
  · rcases List.mem_cons.1 hvalue with rfl | hvalue
    · exact hequals
    · exact (cookie.valued c hvalue).2

theorem splitOnce_text (cookie : Cookie space) :
    splitOnce '=' cookie.text = some (cookie.name, cookie.value) :=
  splitOnce_append (fun h => (cookie.named _ h).1 rfl) _

/-- A header that sets a cookie is read as it was meant, whatever its attributes. -/
theorem received_text (hequals : space '=' = false) (cookie : Cookie space)
    (attributes : List Char) : received space (cookie.text ++ ';' :: attributes) =
      some (cookie.name, cookie.value) := by
  have hfront : (cookie.text ++ ';' :: attributes).takeWhile (fun c => c ≠ ';') = cookie.text := by
    rw [List.takeWhile_append_of_pos fun c hc => ?_]
    · simp
    · simpa using fun h : c = ';' => separator_not_mem_text cookie (h ▸ hc)
  rw [received, hfront, stripEnds_text hequals, splitOnce_text]

theorem find_append (front back : List Char) :
    find space name (front ++ ';' :: back) = (find space name front).or (find space name back) := by
  rw [find, List.splitOn_append_cons_self, List.findSome?_append]
  rfl

theorem find_text (hequals : space '=' = false) (cookie : Cookie space) :
    find space name cookie.text = if cookie.name = name then some cookie.value else none := by
  rw [find, List.splitOn_eq_singleton (separator_not_mem_text cookie)]
  simp [stripEnds_text hequals, splitOnce_text]

/-- White space in front of what was sent makes no difference. -/
theorem find_cons_space {c : Char} (hc : space c = true) (hother : c ≠ ';') :
    find space name (c :: raw) = find space name raw := by
  have hstrip : ∀ pair, stripEnds space (c :: pair) = stripEnds space pair := fun pair => by
    rw [stripEnds, stripEnds, List.dropWhile_cons_of_pos hc]
  obtain ⟨first, rest, hsplit⟩ := List.exists_cons_of_ne_nil (List.splitOn_ne_nil ';' raw)
  rw [find, find, List.splitOn_cons_eq_if_modifyHead, if_neg (by simpa using hother), hsplit]
  simp [List.findSome?_cons, hstrip]

/-- What is found in what a browser sends is the first cookie of the name that it keeps. -/
theorem find_header (hequals : space '=' = false) (hspace : space ' ' = true)
    (jar : List (Cookie space)) :
    find space name (header jar) =
      (jar.find? fun cookie => cookie.name = name).map (·.value) := by
  induction jar with
  | nil => rfl
  | cons cookie jar ih =>
    have hfirst : find space name (header (cookie :: jar)) =
        (find space name cookie.text).or (find space name (header jar)) := by
      cases jar with
      | nil => simp [header, find, splitOnce, stripEnds]
      | cons next jar =>
        rw [header, if_neg (by simp), find_append, find_cons_space hspace (by decide)]
    rw [hfirst, find_text hequals, ih]
    by_cases hname : cookie.name = name <;> simp [hname]

end

end Cookie

end Lib
