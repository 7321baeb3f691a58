import SafeMarkup.Configuration.Routine
/-!
# Configurations

A configuration has a registry of sanitizers, one for an id and sorted by it, and a gate for unchecked markup.  Both
can be changed until the configuration is frozen.  A draft gathers entries, gate and freezing, and makes a
configuration of them at once.
-/
namespace SafeMarkup

/-- Sanitizers by id, in the order of the ids. -/
abbrev Registry := List (Text × Sanitizer)

namespace Registry

/-- Registers a sanitizer, in the place of the one with its id if there is one. -/
def insert (id : Text) (f : Sanitizer) : Registry → Registry
  | [] => [(id, f)]
  | (k, g) :: r =>
    if id = k then (id, f) :: r
    else if id < k then (id, f) :: (k, g) :: r
    else (k, g) :: insert id f r

def find? : Registry → Text → Option Sanitizer
  | [], _ => none
  | (k, f) :: r, id => if id = k then some f else find? r id

def ids (r : Registry) : List Text := r.map (·.1)

/-- The sanitizer registered last under an id is the one that is found, and no other id is touched. -/
theorem find?_insert (id k : Text) (f : Sanitizer) :
    ∀ r : Registry, find? (insert id f r) k = if k = id then some f else find? r k
  | [] => rfl
  | (j, g) :: r => by
    unfold insert
    split
    · rename_i hj
      subst hj
      by_cases h : k = id
      · simp only [find?, if_pos h]
      · simp only [find?, if_neg h]
    · split
      · rfl
      · rename_i hj _
        by_cases h : k = j
        · have hk : k ≠ id := fun e => hj (e.symm.trans h)
          simp only [find?, if_pos h, if_neg hk]
        · simp only [find?, if_neg h, find?_insert id k f r]

end Registry

structure Configuration where
  registry : Registry
  /-- Whether the gate for unchecked markup stands open. -/
  allowsUnsafe : Bool
  frozen : Bool

namespace Configuration

/-- The id that is looked up when none is given. -/
def defaultId : Text := "default".toList

/-- No sanitizers, the gate closed, everything open to change. -/
def empty : Configuration := ⟨[], false, false⟩

def has (c : Configuration) (id : Text) : Bool := (c.registry.find? id).isSome

def status (c : Configuration) : Status := ⟨c.registry.ids, c.allowsUnsafe, c.frozen⟩

def register (c : Configuration) (id : Text) (f : Sanitizer) : Configuration :=
  { c with registry := c.registry.insert id f }

def freeze (c : Configuration) : Configuration := { c with frozen := true }

def freezeEvent (c : Configuration) : Event :=
  if c.frozen then .frozenBefore else .frozen c.registry.length c.allowsUnsafe

end Configuration

/-- A configuration to be. -/
structure Draft where
  /-- Of two entries with one id the later one counts. -/
  entries : List (Text × Sanitizer)
  allowsUnsafe : Bool
  freezes : Bool

namespace Draft

def opened (d : Draft) : Configuration :=
  ⟨d.entries.foldl (fun r e => Registry.insert e.1 e.2 r) [], d.allowsUnsafe, false⟩

def build (d : Draft) : Configuration := if d.freezes then d.opened.freeze else d.opened

/-- The events of `build`. -/
def events (d : Draft) : List Event := if d.freezes then [d.opened.freezeEvent] else []

end Draft
end SafeMarkup
