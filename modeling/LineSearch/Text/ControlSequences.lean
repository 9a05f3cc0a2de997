namespace LineSearch.Text

inductive ControlMode
  | text
  | escape
  | designation
  | parameters
  | device
  | deviceParameters
  | deviceIntermediates
  | string
  | command
  deriving DecidableEq

def isBetween (low high : Nat) (c : Char) : Bool := low ≤ c.toNat && c.toNat ≤ high

/-- A control character that leaves a blank: a tab, or one that ends a line or a page. -/
def isBlankControl (c : Char) : Bool := c == '\t' || c == '\n' || c == '\x0c' || c == '\r'

def isGraphic (c : Char) : Bool := isBlankControl c || isBetween 0x20 0x7e c || 0x80 ≤ c.toNat

def holdsTerminator (c : Char) : Bool := (String.utf8EncodeChar c).contains 0x9c

namespace ControlMode

/-- The mode after a character. A cancel or a substitute ends any sequence, and an escape begins
another one. -/
def next (m : ControlMode) (c : Char) : ControlMode :=
  if c = '\x18' ∨ c = '\x1a' then text
  else if c = '\x1b' then escape
  else
    match m with
    | text => text
    | escape =>
      if isBetween 0x20 0x2f c then designation
      else if c = '[' then parameters
      else if c = ']' then command
      else if c = 'P' then device
      else if c = 'X' ∨ c = '^' ∨ c = '_' then string
      else if isBetween 0x30 0x7e c then text
      else escape
    | designation => if isBetween 0x30 0x7e c then text else designation
    | parameters => if isBetween 0x40 0x7e c then text else parameters
    | device =>
      if isBetween 0x20 0x2f c then deviceIntermediates
      else if isBetween 0x30 0x3f c then deviceParameters
      else if isBetween 0x40 0x7e c then string
      else device
    | deviceParameters =>
      if isBetween 0x20 0x2f c then deviceIntermediates
      else if isBetween 0x3c 0x7e c then string
      else deviceParameters
    | deviceIntermediates => if isBetween 0x30 0x7e c then string else deviceIntermediates
    | string => if holdsTerminator c then text else string
    | command => if c = '\x07' then text else command

def shows : ControlMode → Char → Bool
  | text, c => isGraphic c
  | escape, c | designation, c | parameters, c => isBlankControl c
  | _, _ => false

end ControlMode

/-- Where the reading of a text stands. Once a character has been shown, graphic characters go on
being shown; the mode is not asked until another character comes, and it may be that of a sequence
which a blank interrupted. -/
structure Display where
  mode : ControlMode
  isShowing : Bool
  deriving DecidableEq

namespace Display

def start : Display := ⟨.text, true⟩

def step (d : Display) (c : Char) : Display :=
  if d.isShowing && isGraphic c then ⟨if 0x80 ≤ c.toNat then .text else d.mode, true⟩
  else ⟨d.mode.next c, d.mode.shows c⟩

def shown (d : Display) : List Char → List Char
  | [] => []
  | c :: rest =>
    if (d.step c).isShowing then c :: (d.step c).shown rest else (d.step c).shown rest

theorem shown_sublist (d : Display) (s : List Char) : (d.shown s).Sublist s := by
  induction s generalizing d with
  | nil => exact .refl []
  | cons c rest ih =>
    rw [shown]
    split
    · exact (ih _).cons_cons c
    · exact (ih _).cons c

theorem shown_eq_self (m : ControlMode) (s : List Char) (hs : ∀ c ∈ s, isGraphic c) :
    shown ⟨m, true⟩ s = s := by
  induction s generalizing m with
  | nil => rfl
  | cons c rest ih =>
    have hc : isGraphic c = true := hs c (by simp)
    simp [shown, step, hc, ih _ (fun d hd ↦ hs d (by simp [hd]))]

end Display

/-- The text as a terminal shows it, without colours and the like. -/
def withoutControlSequences (s : String) : String := String.ofList (Display.start.shown s.toList)

theorem withoutControlSequences_eq_self (s : String) (hs : ∀ c ∈ s.toList, isGraphic c) :
    withoutControlSequences s = s := by
  rw [withoutControlSequences, Display.start, Display.shown_eq_self .text s.toList hs,
    String.ofList_toList]

end LineSearch.Text
