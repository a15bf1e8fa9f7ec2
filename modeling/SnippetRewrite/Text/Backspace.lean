import SnippetRewrite.Text.Cluster

/-!
Backspaces in a line that did not come from a terminal: each takes away what a reader takes for one
character, which may be several code points. A line without backspaces is left as it is
(`withoutBackspaces_eq_self`).
-/

namespace SnippetRewrite

def backspace : Char := '\x08'

/-- A line as far as it has come: its characters, the last one first, and the sizes in bytes of the
clusters in it, the latest first. A size has one byte, so one of 256 bytes or more wraps around. -/
structure Draft where
  written : List Char := []
  sizes : List UInt8 := []
deriving DecidableEq, Repr

namespace Draft

/-- Takes characters away until that many bytes are gone; a character goes as a whole. -/
def dropBytes : Nat → List Char → List Char
  | 0, written => written
  | _, [] => []
  | bytes + 1, c :: written => dropBytes (bytes + 1 - c.utf8Size) written

def append (d : Draft) (cluster : List Char) : Draft :=
  { written := cluster.reverse ++ d.written
    sizes := UInt8.ofNat (cluster.foldl (fun n c => n + c.utf8Size) 0) :: d.sizes }

/-- Takes the latest cluster away, if there is one. -/
def erase (d : Draft) : Draft :=
  match d.sizes with
  | [] => d
  | size :: sizes => { written := dropBytes size.toNat d.written, sizes }

/-- A cluster arrives; a backspace is always one of its own. -/
def add (d : Draft) (cluster : List Char) : Draft :=
  if cluster = [backspace] then d.erase else d.append cluster

end Draft

/-- A line after its backspaces have done their work. -/
def withoutBackspaces (line : List Char) : List Char :=
  ((clusters line).foldl Draft.add {}).written.reverse

theorem Draft.written_foldl_add {groups : List (List Char)} (h : [backspace] ∉ groups)
    (d : Draft) :
    (groups.foldl Draft.add d).written = groups.flatten.reverse ++ d.written := by
  induction groups generalizing d with
  | nil => rfl
  | cons cluster groups ih =>
    rw [List.mem_cons, not_or] at h
    simp [ih h.2, add, append, Ne.symm h.1]

theorem withoutBackspaces_eq_self {line : List Char} (h : backspace ∉ line) :
    withoutBackspaces line = line := by
  have alone : [backspace] ∉ clusters line := by
    intro mem
    apply h
    rw [← flatten_clusters line]
    exact List.mem_flatten.2 ⟨_, mem, List.mem_singleton.2 rfl⟩
  simp [withoutBackspaces, Draft.written_foldl_add alone, flatten_clusters]

end SnippetRewrite
