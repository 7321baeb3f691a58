import SafeMarkup.Markup.NameTable
/-!
# Name indexes

A name table as it is kept while names are numbered: the names in a row, and apart from it the number of each name, so
that no row is searched.  A number is a word of 32 bits, and a new name gets as its number how many names there were, as
far as a word holds it.  Names without letters in upper case are looked up as they are.
-/
namespace SafeMarkup

structure NameIndex where
  names : Array Text
  /-- What was put in last stands first. -/
  numbers : List (Text × UInt32)

namespace NameIndex

def empty : NameIndex := ⟨#[], []⟩

def size (t : NameIndex) : Nat := t.names.size

/-- The number of a name that is in the index. -/
def number? (t : NameIndex) (name : Text) : Option UInt32 := t.numbers.lookup name

/-- The name with a number, if the row is long enough. -/
def get? (t : NameIndex) (i : UInt32) : Option Text := t.names[i.toNat]?

/-- The number of a new name, and the index with it. -/
def insert (t : NameIndex) (name : Text) : UInt32 × NameIndex :=
  let i := UInt32.ofNat t.names.size
  (i, ⟨t.names.push name, (name, i) :: t.numbers⟩)

/-- The number of a name in any case, and the index with the name in it. -/
def intern (t : NameIndex) (name : Text) : UInt32 × NameIndex :=
  if name.any Char.isUpper then
    let folded := Text.fold name
    match t.number? folded with
    | some i => (i, t)
    | none => t.insert folded
  else
    match t.number? name with
    | some i => (i, t)
    | none => t.insert name

/-- The numbers of some names, asked for one after the other, and the index with all of them. -/
def internAll (t : NameIndex) : List Text → List UInt32 × NameIndex
  | [] => ([], t)
  | name :: names =>
    let r := t.intern name
    let rs := r.2.internAll names
    (r.1 :: rs.1, rs.2)

/-- The names alone. -/
def table (t : NameIndex) : NameTable := ⟨t.names.toList⟩

end NameIndex
end SafeMarkup
