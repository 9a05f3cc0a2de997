import LineSearch.Log

namespace LineSearch

structure Workshop where
  next : Nat
  events : Array Event

def Workshop.empty : Workshop := ⟨0, #[]⟩

abbrev Build := StateT Workshop (Except AutomatonError)

namespace Build

/-- A state unlike every state handed out before. -/
def fresh : Build State := fun w ↦ .ok (⟨w.next⟩, { w with next := w.next + 1 })

def note (e : Event) : Build Unit := fun w ↦ .ok ((), { w with events := w.events.push e })

end Build

end LineSearch
