import Hypertext.Render.Unfolding

/-! The records of events. A message may spell an element or a document, and writing that out is
itself a reading, whose records come first; where it fails, there is no record. -/
namespace Hypertext.Forest
set_option autoImplicit false

def recordsWithin (f : Forest) : Nat → List Event → Account Journal.Record Unit
  | 0, _ => pure ()
  | depth + 1, events =>
    Account.fold (fun _ e => do
      let spelled := f.textOf e.subject
      recordsWithin f depth spelled.reports.toList
      .report (e.record (← .ofExcept spelled.result))) () events

/-- The records of some events. What a message spells is made of what was there before, so that no
reading lies deeper than the number of elements and documents. -/
def records (f : Forest) (events : List Event) : Account Journal.Record Unit :=
  f.recordsWithin (f.elements.size + f.documents.size + 2) events

end Hypertext.Forest
