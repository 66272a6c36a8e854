import MonkeySyntax.Text.Quoted

/-!
# Files

The files and directories that a command can reach, as a value. A path spells a way through the tree
of directories: names between slashes, to be followed from the root where a slash comes first and
from the working directory otherwise. Slashes in a row count as one, and a slash behind the last
name says that it names a directory. Every name but the last has to lead to a directory; many paths
may lead to one place. A file is read and written as a whole; writing creates it where it does not
exist yet. The main statements say that a write puts its contents at one place and changes no other.
-/

namespace MonkeySyntax

/-! ## Paths -/

/-- A place in the tree: the names on the way to it from the root, the last one first. -/
abbrev Place := List String

structure Path where
  fromRoot : Bool
  names : List String
  slashBehind : Bool
deriving DecidableEq, Repr

namespace Path

/-- What stands before the first slash of a text, and the pieces behind it. -/
def pieces : List Char → List Char × List (List Char)
  | [] => ([], [])
  | c :: cs =>
    let (piece, rest) := pieces cs
    if c = '/' then ([], piece :: rest) else (c :: piece, rest)

def ofString (s : String) : Path :=
  let (piece, rest) := pieces s.toList
  { fromRoot := s.toList.head? == some '/'
    names := ((piece :: rest).filter fun p => !p.isEmpty).map String.ofList
    slashBehind := s.toList.getLast? == some '/' }

/-- The name of an entry in the directory that all names before it lead to. A path without names, or
one that ends by staying where it is or by going up, names a directory only. -/
def entry? (p : Path) : Option String := p.names.getLast?.filter fun n => n ≠ "." ∧ n ≠ ".."

/-- Where a name leads from a place, if it leads anywhere. Above the root is the root. -/
def follow (p : Place) (name : String) : Place :=
  if name = "." then p else if name = ".." then p.tail else name :: p

end Path

/-! ## Files and directories -/

structure Files where
  /-- Places and contents; a place occurs once. -/
  contents : List (Place × ByteArray)
  directories : List Place
  /-- The working directory. -/
  here : Place

/-- Why a path cannot be read or written. -/
inductive FileCause where
  | notFound | notDirectory | isDirectory | nameTooLong
  /-- The path holds the character that ends a text on the machine. -/
  | nullCharacter
deriving DecidableEq, Repr

structure FileFault where
  cause : FileCause
  path : String
deriving DecidableEq, Repr

namespace FileFault

def message (f : FileFault) : String :=
  match f.cause with
  | .notFound => s!"[Errno 2] No such file or directory: {Text.quoted f.path}"
  | .notDirectory => s!"[Errno 20] Not a directory: {Text.quoted f.path}"
  | .isDirectory => s!"[Errno 21] Is a directory: {Text.quoted f.path}"
  | .nameTooLong => s!"[Errno 36] File name too long: {Text.quoted f.path}"
  | .nullCharacter => "embedded null byte"

end FileFault

namespace Files

def get? (fs : Files) (p : Place) : Option ByteArray := fs.contents.lookup p

/-- Above a directory there are only directories. -/
def isDirectory (fs : Files) (p : Place) : Bool :=
  (fs.here :: fs.directories).any fun d => p.isSuffixOf d

/-! ## Following a path -/

/-- How many octets a name may have. -/
def nameLimit : Nat := 255

/-- How many octets a path may have. -/
def pathLimit : Nat := 4095

def fits (name : String) : Bool := name.utf8ByteSize ≤ nameLimit

/-- A text as a path, if it can be one. -/
def accept (s : String) : Except FileCause Path :=
  if '\x00' ∈ s.toList then .error .nullCharacter
  else if s.isEmpty then .error .notFound
  else if pathLimit < s.utf8ByteSize then .error .nameTooLong
  else .ok (Path.ofString s)

/-- Goes from one directory to the next. -/
def enter (fs : Files) (p : Place) (name : String) : Except FileCause Place :=
  if !fits name then .error .nameTooLong
  else if fs.isDirectory (Path.follow p name) then .ok (Path.follow p name)
  else if (fs.get? (Path.follow p name)).isSome then .error .notDirectory
  else .error .notFound

def enterAll (fs : Files) (p : Place) : List String → Except FileCause Place
  | [] => .ok p
  | name :: names =>
    match fs.enter p name with
    | .error e => .error e
    | .ok q => fs.enterAll q names

/-- The directory before the last name of a path. -/
def approach (fs : Files) (path : Path) : Except FileCause Place :=
  fs.enterAll (if path.fromRoot then [] else fs.here) path.names.dropLast

/-! ## Reading and writing -/

/-- The file at an entry of a directory. -/
def open? (fs : Files) (path : Path) (p : Place) : Except FileCause ByteArray :=
  match path.entry? with
  | none => .error .isDirectory
  | some name =>
    if !fits name then .error .nameTooLong
    else if fs.isDirectory (name :: p) then .error .isDirectory
    else
      match fs.get? (name :: p) with
      | none => .error .notFound
      | some bytes => if path.slashBehind then .error .notDirectory else .ok bytes

/-- The place of a file that is to be written at an entry of a directory. -/
def create? (fs : Files) (path : Path) (p : Place) : Except FileCause Place :=
  match path.entry? with
  | none => .error .isDirectory
  | some name =>
    if path.slashBehind then .error .isDirectory
    else if !fits name then .error .nameTooLong
    else if fs.isDirectory (name :: p) then .error .isDirectory
    else .ok (name :: p)

/-- What a path comes to where its last name is dealt with as given. -/
def resolve {α : Type} (fs : Files) (last : Path → Place → Except FileCause α) (s : String) :
    Except FileFault α :=
  match accept s with
  | .error e => .error ⟨e, s⟩
  | .ok path =>
    match fs.approach path with
    | .error e => .error ⟨e, s⟩
    | .ok p =>
      match last path p with
      | .error e => .error ⟨e, s⟩
      | .ok a => .ok a

def read (fs : Files) (s : String) : Except FileFault ByteArray := fs.resolve fs.open? s

/-- The place that writing to a path changes. -/
def target (fs : Files) (s : String) : Except FileFault Place := fs.resolve fs.create? s

/-- Puts the contents of a place instead of those it had, or behind all other files. -/
def put (p : Place) (bytes : ByteArray) : List (Place × ByteArray) → List (Place × ByteArray)
  | [] => [(p, bytes)]
  | f :: fs => if f.1 = p then (p, bytes) :: fs else f :: put p bytes fs

def write (fs : Files) (s : String) (bytes : ByteArray) : Except FileFault Files :=
  match fs.target s with
  | .error e => .error e
  | .ok p => .ok { fs with contents := put p bytes fs.contents }

/-! ## What a write changes -/

theorem lookup_put (p : Place) (bytes : ByteArray) (fs : List (Place × ByteArray)) :
    (put p bytes fs).lookup p = some bytes := by
  induction fs with
  | nil => simp [put]
  | cons f fs ih =>
    obtain ⟨q, b⟩ := f
    by_cases h : q = p
    · simp [put, h]
    · simp [put, h, List.lookup_cons, beq_eq_false_iff_ne.mpr (Ne.symm h), ih]

theorem lookup_put_of_ne {p q : Place} (h : q ≠ p) (bytes : ByteArray)
    (fs : List (Place × ByteArray)) : (put p bytes fs).lookup q = fs.lookup q := by
  induction fs with
  | nil => simp [put, h]
  | cons f fs ih =>
    obtain ⟨r, b⟩ := f
    by_cases hr : r = p
    · simp [put, hr, List.lookup_cons, beq_eq_false_iff_ne.mpr h]
    · simp [put, hr, List.lookup_cons, ih]

/-- A write succeeds just where its path leads to a place for a file. -/
theorem write_eq_ok_iff {fs fs' : Files} {s : String} {bytes : ByteArray} :
    fs.write s bytes = .ok fs' ↔
      ∃ p, fs.target s = .ok p ∧ fs' = { fs with contents := put p bytes fs.contents } := by
  unfold write
  cases fs.target s with
  | error e => simp
  | ok p => simp [eq_comm]

/-- What was written stands at the place that the path leads to. -/
theorem get?_write {fs fs' : Files} {s : String} {bytes : ByteArray} {p : Place}
    (h : fs.write s bytes = .ok fs') (hp : fs.target s = .ok p) : fs'.get? p = some bytes := by
  obtain ⟨q, hq, rfl⟩ := write_eq_ok_iff.mp h
  rw [hp] at hq
  cases hq
  exact lookup_put ..

/-- Writing changes no other file. -/
theorem get?_write_of_ne {fs fs' : Files} {s : String} {bytes : ByteArray} {p q : Place}
    (h : fs.write s bytes = .ok fs') (hp : fs.target s = .ok p) (hne : q ≠ p) :
    fs'.get? q = fs.get? q := by
  obtain ⟨r, hr, rfl⟩ := write_eq_ok_iff.mp h
  rw [hp] at hr
  cases hr
  exact lookup_put_of_ne hne ..

end Files

end MonkeySyntax
