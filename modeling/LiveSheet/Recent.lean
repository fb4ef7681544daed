import Std.Data.HashMap
import Std.Data.TreeMap

/-! # Bounded maps

A map that holds at most `capacity` entries. Looking an entry up or putting it in makes it
the most recently used one, and the least recently used entry gives way when a new one
does not fit. Uses are numbered by a clock: `lastUse` finds the number of a key's last use,
and `byUse` holds the entries in the order of their last uses. -/

namespace LiveSheet

/-- A map of at most `capacity` entries that forgets the least recently used one. -/
structure Recent (κ ν : Type) [BEq κ] [Hashable κ] where
  capacity : Nat
  lastUse : Std.HashMap κ Nat
  byUse : Std.TreeMap Nat (κ × ν) compare
  clock : Nat

namespace Recent

variable {κ ν : Type} [BEq κ] [Hashable κ]

def empty (capacity : Nat) : Recent κ ν :=
  ⟨capacity, ∅, ∅, 0⟩

def size (m : Recent κ ν) : Nat :=
  m.byUse.size

/-- The entries, the least recently used one first. -/
def toList (m : Recent κ ν) : List (κ × ν) :=
  m.byUse.toList.map Prod.snd

def erase (m : Recent κ ν) (key : κ) : Recent κ ν :=
  match m.lastUse[key]? with
  | none => m
  | some stamp => { m with lastUse := m.lastUse.erase key, byUse := m.byUse.erase stamp }

/-- Adds an entry for a key that has none, as the most recently used one. -/
def push (m : Recent κ ν) (key : κ) (value : ν) : Recent κ ν :=
  { m with
    lastUse := m.lastUse.insert key m.clock
    byUse := m.byUse.insert m.clock (key, value)
    clock := m.clock + 1 }

/-- The least recently used entry, with the number of its last use. -/
def oldest? (m : Recent κ ν) : Option (Nat × κ × ν) :=
  m.byUse.minKey?.bind fun stamp => m.byUse[stamp]?.map (stamp, ·)

/-- Removes the least recently used entry. -/
def dropOldest (m : Recent κ ν) : Recent κ ν :=
  match m.oldest? with
  | none => m
  | some (stamp, key, _) =>
      { m with lastUse := m.lastUse.erase key, byUse := m.byUse.erase stamp }

/-- The value of a key, which becomes the most recently used one if it has an entry. -/
def get (m : Recent κ ν) (key : κ) : Option ν × Recent κ ν :=
  match m.lastUse[key]?.bind (m.byUse[·]?) with
  | none => (none, m)
  | some (_, value) => (some value, (m.erase key).push key value)

/-- Gives a key a value and makes room for it if need be. -/
def put (m : Recent κ ν) (key : κ) (value : ν) : Recent κ ν :=
  let m := (m.erase key).push key value
  if m.size > m.capacity then m.dropOldest else m

def clear (m : Recent κ ν) : Recent κ ν :=
  { m with lastUse := ∅, byUse := ∅ }

end Recent

end LiveSheet
