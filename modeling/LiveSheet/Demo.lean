import LiveSheet.Exchange
import LiveSheet.Session.Run

/-! # The demonstration

A sheet with a running sum down one column. It is filled in batches; after the second batch
somebody scrolls to the middle. Then the first cell is edited, the edit runs down the whole
column, and the cells in view are printed. -/

namespace LiveSheet.Demo

/-- What a program leaves behind. -/
structure Outcome where
  status : Nat
  stdout : String
  stderr : String

def rowsInView : Float := 20

def session (settings : Settings) : Except SheetError Session := do
  let start ← Session.start settings (.chain Template.defaultSeed)
  let target := Float.ofNat (settings.totalRows / 2) * settings.rowHeight
  let height := rowsInView * settings.rowHeight
  let scroll : Session.Intervention Unit := fun s => ((), s.setViewport target height)
  let (_, populated) := start.runPopulation [fun s => ((), s), scroll]
  let (_, edited) ← populated.runCascade (α := Unit) ⟨0, 0⟩ "5" []
  return edited.setViewport target height

/-- Runs the demonstration with settings from variables and prints what is in view. -/
def run (lookup : String → Option String) : Outcome :=
  match (Settings.ofVariables lookup).bind session with
  | .error e => ⟨1, "", "Error: " ++ e.message ++ "\n"⟩
  | .ok s => ⟨0, (Json.array (s.readVisible.map Snapshot.toJson)).pretty ++ "\n", ""⟩

end LiveSheet.Demo
