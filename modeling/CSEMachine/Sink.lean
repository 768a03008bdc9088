/-!
# Sinks

A sink is where printed texts go.  Only a buffer keeps them.

Main results:

- Theorem `Sink.contents_writeAll_buffer`: a buffer holds all that was written to
  it, in order and with nothing added.
-/

namespace CSEMachine

/-- Where printed texts go. -/
inductive Sink where
  /-- Drops every text. -/
  | silent
  /-- Passes texts on to a console and keeps none. -/
  | console
  /-- Keeps every text. -/
  | buffer (contents : String)
deriving DecidableEq

namespace Sink

/-- A buffer that holds nothing yet. -/
def emptyBuffer : Sink :=
  .buffer ""

/-- Takes a text.  No line end is added. -/
def write : Sink → String → Sink
  | .buffer contents, text => .buffer (contents ++ text)
  | .silent, _ => .silent
  | .console, _ => .console

/-- Takes several texts, the first one first. -/
def writeAll (sink : Sink) (texts : List String) : Sink :=
  texts.foldl write sink

/-- What a sink holds, for those that hold anything. -/
def contents : Sink → String
  | .buffer contents => contents
  | .silent | .console => ""

/-- Forgets what a sink holds. -/
def clear : Sink → Sink
  | .buffer _ => .buffer ""
  | .silent => .silent
  | .console => .console

/-- What is written to a buffer is added behind what it holds. -/
theorem writeAll_buffer (contents : String) (texts : List String) :
    (Sink.buffer contents).writeAll texts = .buffer (contents ++ String.join texts) := by
  induction texts generalizing contents with
  | nil => simp [writeAll]
  | cons text texts ih =>
    simp only [writeAll, List.foldl_cons, write] at ih ⊢
    rw [ih, String.join_cons, String.append_assoc]

/-- A buffer holds all that was written to it, in order and with nothing added. -/
theorem contents_writeAll_buffer (contents : String) (texts : List String) :
    ((Sink.buffer contents).writeAll texts).contents = contents ++ String.join texts := by
  rw [writeAll_buffer, Sink.contents]

end Sink

end CSEMachine
