/-!
# Sinks

What a statement is written to. A statement hands over keywords, names, literals, separators and
line breaks, and leaves their layout to the sink. Opening a list gives a frame, and closing the
list takes it back.

A recorded sink keeps every call made on it. A session holds the frames of the lists that were
opened through it, innermost first, and so can close the innermost one.
-/

namespace AlterCatalog

/-- The receipt for an open list. The outermost list has depth one. -/
structure Frame where
  depth : Nat
  opening : String
  closing : String
deriving DecidableEq

class Sink (σ : Type) where
  keyword : String → σ → σ
  name : List String → σ → σ
  /-- A literal that is already source text. -/
  literal : String → σ → σ
  separator : String → σ → σ
  lineBreak : σ → σ
  openList : String → String → σ → Frame × σ
  closeList : Frame → σ → σ

namespace Sink

variable {σ : Type} [Sink σ]

/-- What comes before an item of a list. -/
def itemBreak (w : σ) : σ := lineBreak (separator "," w)

/-- Runs a body inside a list, which is closed however the body ends. -/
def withList (opening closing : String) (body : σ → σ) (w : σ) : σ :=
  closeList (openList opening closing w).1 (body (openList opening closing w).2)

end Sink

inductive Call where
  | keyword (text : String)
  | name (parts : List String)
  | literal (text : String)
  | separator (text : String)
  | lineBreak
  | openList (opening closing : String) (given : Frame)
  | closeList (frame : Frame)
deriving DecidableEq

structure Recorded (σ : Type) where
  sink : σ
  calls : List Call := []

instance {σ : Type} [Sink σ] : Sink (Recorded σ) where
  keyword text r := ⟨Sink.keyword text r.sink, r.calls ++ [.keyword text]⟩
  name parts r := ⟨Sink.name parts r.sink, r.calls ++ [.name parts]⟩
  literal text r := ⟨Sink.literal text r.sink, r.calls ++ [.literal text]⟩
  separator text r := ⟨Sink.separator text r.sink, r.calls ++ [.separator text]⟩
  lineBreak r := ⟨Sink.lineBreak r.sink, r.calls ++ [.lineBreak]⟩
  openList opening closing r :=
    let (frame, sink) := Sink.openList opening closing r.sink
    (frame, ⟨sink, r.calls ++ [.openList opening closing frame]⟩)
  closeList frame r := ⟨Sink.closeList frame r.sink, r.calls ++ [.closeList frame]⟩

/-- One thing to ask of a sink. -/
inductive Request where
  | keyword (text : String)
  | name (parts : List String)
  | literal (text : String)
  | separator (text : String)
  | lineBreak
  | itemBreak
  | openList (opening closing : String)
  /-- Closes the innermost list that is open. -/
  | closeList
deriving DecidableEq

structure Session (σ : Type) where
  sink : σ
  held : List Frame := []

namespace Session

variable {σ : Type} [Sink σ]

/-- A frame of no list. -/
def noFrame : Frame := ⟨0, "(", ")"⟩

def perform (s : Session σ) : Request → Session σ
  | .keyword text => { s with sink := Sink.keyword text s.sink }
  | .name parts => { s with sink := Sink.name parts s.sink }
  | .literal text => { s with sink := Sink.literal text s.sink }
  | .separator text => { s with sink := Sink.separator text s.sink }
  | .lineBreak => { s with sink := Sink.lineBreak s.sink }
  | .itemBreak => { s with sink := Sink.itemBreak s.sink }
  | .openList opening closing =>
    let (frame, sink) := Sink.openList opening closing s.sink
    ⟨sink, frame :: s.held⟩
  | .closeList => ⟨Sink.closeList (s.held.headD noFrame) s.sink, s.held.tail⟩

def run (s : Session σ) (requests : List Request) : Session σ := requests.foldl perform s

end Session

end AlterCatalog
