import ScriptEngine.Config
import ScriptEngine.FileTree
import ScriptEngine.Proofs.Text.Searching

/-!
# The nearest settings file

The search for a settings file goes from a directory to the one above it until it finds one or is at
the root, where the directory above is the directory itself. It ends, because a path has one element
less each time, and what it ends with is what loading the nearest settings file gives, errors
included, or the standard configuration where there is none.
-/

namespace ScriptEngine

/-!
# Cleaned paths

A cleaned path from the root is the list of its elements, none of which is empty, `.` or `..`. The
directory of such a path is the path without its last element, or the path itself at the root, and
joining it with a name adds one element.
-/

/-!
# Joined texts
-/

namespace Text

end Text

namespace Path

/-!
# Elements
-/

/-- An element of a cleaned path from the root. -/
structure Named (e : Text) : Prop where
  nonempty : e.isEmpty = false
  slashless : 0x2F ∉ e.toList
  ne_dot : e ≠ dot
  ne_dotDot : e ≠ dotDot

variable {p e : Text} {es parts : List Text}

/-- The elements that the text of a path shows behind the first slash: at the root there is an empty
one. -/
def shown (es : List Text) : List Text :=
  if es.isEmpty then [Text.empty] else es

end Path

/-!
# Entries of directories
-/

namespace FileTree

/-- There is such a directory, given by the elements of its path, with an entry of that name. Paths hold
no zero byte. -/
structure HasEntry (t : FileTree) (dir : List Text) (name : Text) : Prop where
  directories : ∀ k, k ≤ dir.length → t.node? (dir.take k) = some .directory
  entry : (t.node? (dir ++ [name])).isSome = true
  legal : 0 ∉ (pathOf (dir ++ [name])).toList

variable {t : FileTree} {es here : List Text} {name workDir : Text}

end FileTree

/-!
# The search
-/

namespace Config

open FileTree (pathOf)

/-- The nearest directory at or above another one that has a settings file; both are given by the
elements of their paths. -/
structure Nearest (files : FileTree) (start dir : List Text) : Prop where
  above : dir <+: start
  entry : files.HasEntry dir fileName
  nearest : ∀ other, other <+: start → files.HasEntry other fileName → other <+: dir

/-- There is no settings file at or above the directory. -/
def Lacking (files : FileTree) (start : List Text) : Prop :=
  ∀ dir, dir <+: start → ¬ files.HasEntry dir fileName

variable {files : FileTree} {workDir : Text} {es dir dir' : List Text} {e : Text}

theorem Nearest.unique (h : Nearest files es dir) (h' : Nearest files es dir') : dir = dir' :=
  (h'.nearest dir h.above h.entry).eq_of_length_le
    (h.nearest dir' h'.above h'.entry).length_le

theorem Nearest.here (h : files.HasEntry es fileName) : Nearest files es es :=
  ⟨List.prefix_refl es, h, fun _ hother _ => hother⟩

/-- Where a directory has no settings file, the nearest one is that of the directory above. -/
theorem Nearest.up (hnot : ¬ files.HasEntry (es ++ [e]) fileName) (h : Nearest files es dir) :
    Nearest files (es ++ [e]) dir where
  above := h.above.trans (List.prefix_append es [e])
  entry := h.entry
  nearest other hother hentry := by
    rcases List.prefix_concat_iff.mp hother with rfl | hother
    · exact absurd hentry hnot
    · exact h.nearest other hother hentry

theorem Lacking.up (hnot : ¬ files.HasEntry (es ++ [e]) fileName) (h : Lacking files es) :
    Lacking files (es ++ [e]) := by
  intro other hother hentry
  rcases List.prefix_concat_iff.mp hother with rfl | hother
  · exact hnot hentry
  · exact h other hother hentry

end Config
end ScriptEngine
