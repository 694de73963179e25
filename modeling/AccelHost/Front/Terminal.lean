/-!
Texts with control sequences for a terminal, and what is left of them where no terminal reads. A
control sequence starts with an escape character and ends with its final character. One that is not
finished takes the text behind it along. A tab or a line end in a sequence is shown with the text
behind it, until another control resumes the sequence.
-/
namespace AccelHost.Text.Terminal

def escape : Char := '\x1b'

/-- A text between the sequence for a style and the one that ends all styles. -/
def styled (style text : String) : String := "\x1b[" ++ style ++ "m" ++ text ++ "\x1b[0m"

def bold (text : String) : String := styled "1" text

def marked (text : String) : String := styled "33" text

/-- What a reader of a text is in the middle of. -/
inductive Mode where
  | ground
  /-- Right after an escape character. -/
  | escape
  /-- An escape sequence with characters before its final one. -/
  | intermediate
  /-- A control sequence, which sets styles and the like. -/
  | control
  /-- A command to the system, up to a bell. -/
  | command
  /-- The start of a string for a device. -/
  | device
  /-- Such a string with parameters. -/
  | parameters
  /-- Such a string with characters before its final one. -/
  | qualifiers
  /-- Any other string, up to a terminator. -/
  | string
deriving DecidableEq

/-- The controls that leave a mark in a text: tab, line feed, form feed and carriage return. -/
def isSpacing (c : Char) : Bool := c = '\t' || c = '\n' || c = '\x0c' || c = '\r'

/-- Whether a character is in a text where no sequence is open. -/
def isShown (c : Char) : Bool := isSpacing c || (' ' ≤ c && c ≠ '\x7f')

def opened (c : Char) : Mode :=
  if c < '0' then .intermediate
  else if c = '[' then .control
  else if c = ']' then .command
  else if c = 'P' then .device
  else if c = 'X' ∨ c = '^' ∨ c = '_' then .string
  else .ground

/-- The mode after a printing character in a sequence. -/
def within : Mode → Char → Mode
  | .escape, c => opened c
  | .intermediate, c => if c < '0' then .intermediate else .ground
  | .control, c => if c < '@' then .control else .ground
  | .device, c => if c < '0' then .qualifiers else if c < '@' then .parameters else .string
  | .parameters, c => if c < '0' then .qualifiers else if c < '<' then .parameters else .string
  | .qualifiers, c => if c < '0' then .qualifiers else .string
  | m, _ => m

/-- Whether a character ends a string: one with the terminator's byte in its encoding. -/
def isTerminator (c : Char) : Bool := (String.utf8EncodeChar c).contains 0x9c

def resumed (m : Mode) (c : Char) : Mode :=
  if m = .string ∧ isTerminator c then .ground
  else if m = .command ∧ c = '\x07' then .ground
  else if ' ' ≤ c ∧ c < '\x7f' then within m c
  else m

structure State where
  mode : Mode := .ground
  /-- Whether text is shown in the midst of a sequence. -/
  interrupted : Bool := false
deriving DecidableEq

/-- Whether a character is shown, and the state after it. -/
def step (s : State) (c : Char) : Bool × State :=
  if c = escape then (false, ⟨.escape, false⟩)
  else if c = '\x18' ∨ c = '\x1a' then (false, {})
  else if s.interrupted && isShown c then (true, if c < '\x80' then s else {})
  else
    match s.mode with
    | .ground => (isShown c, {})
    | .escape | .intermediate | .control =>
      if isSpacing c then (true, ⟨s.mode, true⟩) else (false, ⟨resumed s.mode c, false⟩)
    | m => (false, ⟨resumed m c, false⟩)

def shown (s : State) : List Char → List Char
  | [] => []
  | c :: rest =>
    let (visible, s) := step s c
    if visible then c :: shown s rest else shown s rest

def plain (s : String) : String := String.ofList (shown {} s.toList)

end AccelHost.Text.Terminal
