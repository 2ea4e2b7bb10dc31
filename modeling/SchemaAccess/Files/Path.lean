/-!
# Paths

Paths are texts with components separated by slashes.

* `isCutShort`, `maxBytes`, `maxNameBytes` — what the system does not take for a path.
* `join` — a path relative to a folder; an absolute path stays as it is.
* `parent?` — the folder of a path, as far as the text tells.

Empty components and single dots do not count as components, except for a dot at the very front.
`length_lt_of_parent?` says that going from a path to its folder ends after finitely many steps.
-/

namespace SchemaAccess.Path

/-- True of a path that begins at the root. -/
def isAbsolute (path : String) : Bool := path.toList.head? = some '/'

/-- True of a path with a null character, which the system would take for its end. -/
def isCutShort (path : String) : Bool := path.toList.contains '\x00'

/-- The most bytes that a path can have. -/
def maxBytes : Nat := 4095

/-- The most bytes that a component of a path can have. -/
def maxNameBytes : Nat := 255

/-- A path relative to a folder. -/
def join (folder path : String) : String :=
  if isAbsolute path then path
  else if folder.isEmpty || folder.toList.getLast? = some '/' then folder ++ path
  else folder ++ "/" ++ path

/-! ## The folder of a path -/

/-- The characters in front of the first component: a slash, or a dot that stands alone. -/
def front (path : List Char) : List Char :=
  match path with
  | '/' :: _ => ['/']
  | '.' :: '/' :: _ => ['.']
  | ['.'] => ['.']
  | _ => []

/-- A reversed path without its last component and the slash before it. -/
def dropLast (reversed : List Char) : List Char := (reversed.dropWhile (· ≠ '/')).tail

theorem length_dropLast_lt {reversed : List Char} (h : reversed ≠ []) :
    (dropLast reversed).length < reversed.length := by
  have := (List.dropWhile_suffix (l := reversed) (· ≠ '/')).length_le
  have := List.length_pos_iff.2 h
  simp only [dropLast, List.length_tail]
  omega

/-- A reversed path without the empty components and dots at its end. -/
def dropTrivial (reversed : List Char) : List Char :=
  match reversed with
  | [] => []
  | c :: cs =>
    if (c :: cs).takeWhile (· ≠ '/') ∈ [[], ['.']] then dropTrivial (dropLast (c :: cs))
    else c :: cs
termination_by reversed.length
decreasing_by exact length_dropLast_lt (by simp)

/-- The characters of the folder of a path that begins with `start`, if the rest, reversed and
without trivial components, is `body`. -/
def folderOf? (start body : List Char) : Option (List Char) :=
  if body.isEmpty then
    if start = ['.'] then some [] else none
  else some (start ++ (dropTrivial (dropLast body)).reverse)

/-- The folder of a path; none for the root and the empty path. -/
def parent? (path : String) : Option String :=
  let start := front path.toList
  (folderOf? start (dropTrivial (path.toList.drop start.length).reverse)).map String.ofList

/-! ## The folder of a path is shorter -/

theorem length_dropTrivial_le (reversed : List Char) :
    (dropTrivial reversed).length ≤ reversed.length := by
  fun_induction dropTrivial reversed with
  | case1 => simp
  | case2 c cs _ ih => exact Nat.le_trans ih (Nat.le_of_lt (length_dropLast_lt (by simp)))
  | case3 c cs _ => simp

theorem length_front_le (path : List Char) : (front path).length ≤ path.length := by
  unfold front
  split <;> simp

theorem length_lt_of_folderOf? {start body folder : List Char}
    (h : folderOf? start body = some folder) : folder.length < start.length + body.length := by
  unfold folderOf? at h
  split at h
  · split at h
    · next hs =>
      cases h
      rw [hs, List.length_nil, List.length_singleton]
      omega
    · simp at h
  · next hb =>
    have hne : body ≠ [] := by simpa using hb
    have := length_dropLast_lt hne
    have := length_dropTrivial_le (dropLast body)
    cases h
    simp only [List.length_append, List.length_reverse]
    omega

theorem length_lt_of_parent? {path folder : String} (h : parent? path = some folder) :
    folder.length < path.length := by
  have hfront := length_front_le path.toList
  have hbody :=
    length_dropTrivial_le (path.toList.drop (front path.toList).length).reverse
  obtain ⟨chars, hchars, rfl⟩ := Option.map_eq_some_iff.1 h
  have := length_lt_of_folderOf? hchars
  simp only [List.length_reverse, List.length_drop, String.length_toList, String.length_ofList]
    at hfront hbody this ⊢
  omega

end SchemaAccess.Path
