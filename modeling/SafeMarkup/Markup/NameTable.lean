import SafeMarkup.Text.Basic
/-!
# Name tables

Names in lower case, each once, numbered in the order in which they first appeared.  A number stands for its name as
long as the table grows; a name and its spellings in other cases have one number.
-/
namespace SafeMarkup

structure NameTable where
  names : List Text

namespace NameTable

def empty : NameTable := ⟨[]⟩

def size (t : NameTable) : Nat := t.names.length

/-- The number of a name, and the table with the name in it. -/
def insert (t : NameTable) (name : Text) : Nat × NameTable :=
  match t.names.idxOf? (Text.fold name) with
  | some i => (i, t)
  | none => (t.size, ⟨t.names ++ [Text.fold name]⟩)

/-- The name with a number, if the table has given that number away. -/
def get? (t : NameTable) (i : Nat) : Option Text := t.names[i]?

end NameTable
end SafeMarkup
