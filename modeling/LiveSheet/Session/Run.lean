import LiveSheet.Session

/-! # Interrupted runs

Long work is done in batches, and between two batches somebody else may use the session: to
apply edits, to scroll, even to start the next pass. The interventions are listed by batch,
the first one after the first batch; once they are used up the work goes on alone. A run
logs what every batch was and what its intervention gave. -/

namespace LiveSheet.Session

/-- What somebody does with a session after a batch, with what it gives. -/
abbrev Intervention (α : Type) := Session → α × Session

variable {α : Type}

/-- Runs a population pass to its end, after the batches of `log`, the last of which comes
first. -/
def populateOnto (log : List (Batch × Option α)) (interventions : List (Intervention α))
    (s : Session) : List (Batch × Option α) × Session :=
  match h : s.population.nextBatch? with
  | none => (log.reverse, s)
  | some batch =>
      have := remaining_writeBatch_lt h
      match interventions with
      | [] => populateOnto ((batch, none) :: log) [] (s.writeBatch batch)
      | intervene :: rest =>
          let (result, s) := intervene (s.writeBatch batch)
          populateOnto ((batch, some result) :: log) rest s
termination_by (interventions.length, s.population.remaining)

/-- Runs a population pass. An intervention that starts another pass prolongs the run. -/
def runPopulation (s : Session) (interventions : List (Intervention α)) :
    List (Batch × Option α) × Session :=
  populateOnto [] interventions s.startPopulation

def cascadeBatch (s : Session) : Session :=
  { s with sheet := (s.sheet.cascadeStep s.sheet.settings.cascadeBatchSize).2 }

/-- Advances the cascade batch by batch until nothing is left, after the batches of `log`,
the last of which comes first. The budget bounds the number of batches that no intervention
follows. -/
def cascadeOnto (log : List (Option α)) (interventions : List (Intervention α)) (budget : Nat)
    (s : Session) : List (Option α) × Session :=
  if s.sheet.cascadePending then
    match interventions, budget with
    | intervene :: rest, budget =>
        let (result, s) := intervene s.cascadeBatch
        cascadeOnto (some result :: log) rest budget s
    | [], 0 => (log.reverse, s)
    | [], budget + 1 => cascadeOnto (none :: log) [] budget s.cascadeBatch
  else (log.reverse, s)
termination_by (interventions.length, budget)

/-- Applies one edit and propagates it in batches. No more batches are needed than there are
cells, because each one visits a cell that was not visited before. -/
def runCascade (s : Session) (c : Coord) (raw : String) (interventions : List (Intervention α)) :
    Except SheetError (List (Option α) × Session) :=
  match s.sheet.beginEdit c raw with
  | .error e => .error e
  | .ok sheet => .ok (cascadeOnto [] interventions (sheet.cellBound + 1) { s with sheet })

end LiveSheet.Session
