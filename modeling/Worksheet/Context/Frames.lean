import Worksheet.Expr.Eval

/-! A stack of contexts, of which the top one is worked with. A context that is put on top of another shares
    with it what a solve records: the constants that are hidden and the names that were used. A reset gives
    the top one a record of its own; those below keep theirs. -/

namespace Worksheet

/-- What a solve records. -/
structure Record where
  shadowed : Table Int := ∅
  used : Usage := {}

/-- A context with its record, if it does not share the one of the frame below. -/
structure Frame where
  context : Context
  own : Option Record

/-- Frames, the top one first. -/
structure FrameStack where
  top : Frame
  below : List Frame
  /-- The record of the frames that have none of their own above them. -/
  base : Record

namespace FrameStack

/-- A stack of one frame. -/
def start (c : Context) : FrameStack := ⟨⟨c, none⟩, [], { shadowed := c.shadowed }⟩

/-- The record that a list of frames uses. -/
def recordOf (base : Record) : List Frame → Record
  | [] => base
  | f :: fs => f.own.getD (recordOf base fs)

/-- Puts a record in place of the one that the frames use: the frames and the base. -/
def replaceRecord (r base : Record) : List Frame → List Frame × Record
  | [] => ([], r)
  | f :: fs =>
    if f.own.isSome then ({ f with own := some r } :: fs, base)
    else
      let (fs, base) := replaceRecord r base fs
      (f :: fs, base)

def record (s : FrameStack) : Record := recordOf s.base (s.top :: s.below)

def setRecord (s : FrameStack) (r : Record) : FrameStack :=
  match replaceRecord r s.base (s.top :: s.below) with
  | (top :: below, base) => ⟨top, below, base⟩
  | ([], base) => { s with base }

/-- The context to work with: that of the top frame, with what its record hides. -/
def context (s : FrameStack) : Context := { s.top.context with shadowed := s.record.shadowed }

/-- Changes the top context, what it hides included. -/
def modify (s : FrameStack) (f : Context → Context) : FrameStack :=
  let c := f s.context
  ({ s with top := { s.top with context := c } } : FrameStack).setRecord { s.record with shadowed := c.shadowed }

/-- Records the names that an evaluation uses. -/
def evaluate {α : Type} (s : FrameStack) (x : Context → Evaluation α) : Except EvalError α × FrameStack :=
  let r := x s.context
  (r.result, s.setRecord { s.record with used := s.record.used.union r.used })

/-- Puts a copy of the top context on top, one call deeper. -/
def push (s : FrameStack) : FrameStack :=
  ⟨⟨{ s.context with depth := s.context.depth + 1 }, none⟩, s.top :: s.below, s.base⟩

/-- Takes the top frame off unless it is the last. -/
def pop (s : FrameStack) : FrameStack :=
  match s.below with
  | [] => s
  | f :: fs => ⟨f, fs, s.base⟩

/-- Gives the top frame an empty record of its own. -/
def reset (s : FrameStack) : FrameStack := { s with top := { s.top with own := some {} } }

end FrameStack
end Worksheet
