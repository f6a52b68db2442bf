import TableScan.Table.Reader
import TableScan.Proofs.Attempts

/-!
# Calls of a reader

A reader is used by any sequence of its two calls: going on with a key and taking the next record.
`RecordReader.answers` is what a whole sequence of calls answers, on a disk that nobody changes
meanwhile.
-/

namespace TableScan

/-- A call of a reader. -/
inductive ReaderCall where
  | seek (key : RowKey)
  | next

namespace RecordReader

variable {ρ : Type} [RecordReader ρ]

/-- Performs a call. Going on with a key answers no record. -/
def perform (disk : Disk) : ReaderCall → Step ρ (Option Record)
  | .seek key => do
    seekTo disk key
    return none
  | .next => next disk

/-- The answers of calls one after another; a call that fails is answered too, and the next one goes
on from there. -/
def answers (disk : Disk) (r : ρ) (calls : List ReaderCall) : List (LoadResult (Option Record)) :=
  (Step.runEach (perform disk) calls r).1

theorem answers_cons {disk : Disk} {r r' : ρ} {call : ReaderCall}
    {result : LoadResult (Option Record)} {log : List Log.Entry}
    (h : (perform disk call).run r = ⟨result, r', log⟩) (calls : List ReaderCall) :
    answers disk r (call :: calls) = result :: answers disk r' calls := by
  show _ :: answers disk _ calls = _
  rw [h]

end RecordReader

end TableScan
