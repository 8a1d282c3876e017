import Worksheet.Solve.Document

/-! Working on one document: its text is edited, cleared and solved again under settings and a shared context
    that may change in between. -/

namespace Worksheet

structure Session where
  text : Text
  settings : Settings
  context : Context

namespace Session

/-- The document solved; its text takes the place of the old one. -/
def solve (s : Session) : Solution × Session :=
  let r := Worksheet.solve s.text s.context s.settings
  (r, { s with text := r.text })

def clear (s : Session) (c : Clearing) : Session := { s with text := c.clear s.text }

def replace (s : Session) (text : Text) : Session := { s with text }

def append (s : Session) (text : Text) : Session := { s with text := s.text ++ text }

/-- Another text for one line, counted from 0; nothing changes if there is no such line. -/
def replaceLine (s : Session) (line : Nat) (text : Text) : Session :=
  { s with text := Text.unlines ((Text.lines s.text).set line text) }

def removeReferences (s : Session) : Session := { s with text := Reference.remove s.text }

def configure (s : Session) (settings : Settings) : Session := { s with settings }

/-- Another shared context, if its functions can be read. -/
def share (s : Session) (constants functions : Text) (surroundings : Surroundings) : Except ParseError Session :=
  match Shared.context constants functions { surroundings with degrees := s.settings.degrees } with
  | .ok context => .ok { s with context }
  | .error e => .error e

end Session
end Worksheet
