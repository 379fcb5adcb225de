import OsSolutions.Source.Stdio
import Mathlib.Data.Vector.Basic

/-! # The hand-off of a word in `ex2/q1/main.c`

A reader prints the word and writes the text to the pipe. `runMainLoop` reads the text into
`polygonBuffer` and scans it. -/

namespace OsSolutions.Readers

/-- What both readers write: the 16 characters of `polygonBuffer` without its NUL. -/
def reply (nextPolygon : UInt64) : Text := (sprintfHex nextPolygon).take 16

/-- `polygonBuffer` of `runMainLoop` after the `read` of at most 16 bytes. -/
def readReply (pipe : Text) (polygonBuffer : Vector UInt8 17) : Text :=
  pipe.take 16 ++ polygonBuffer.toList.drop (pipe.take 16).length

/-- What the `sscanf` of `runMainLoop` stores into `nextPolygon`, if anything. The string ends
at the first NUL, which may be among the bytes `above` the buffer. -/
def handOff (nextPolygon : UInt64) (polygonBuffer : Vector UInt8 17) (above : Text) :
    Option UInt64 :=
  sscanfHex (readReply (reply nextPolygon) polygonBuffer ++ above)

end OsSolutions.Readers
