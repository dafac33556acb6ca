import FieldMask.Prune.Pruner
import FieldMask.Request
import FieldMask.Sink

/-!
# Responses

The response to a request is the resource, pruned to the fields that the request asks for, as a JSON
text.  A malformed selector is found out before anything is sent, so that an error can still be answered
instead; it is the one failure for which the client is to blame.
-/

namespace FieldMask

open Selector (SyntaxError)

/-- Why there is no response, or only part of one. -/
inductive ResponseError where
  | invalidSelector (error : SyntaxError)
  /-- The text could not be sent. -/
  | json (cause : String)
  /-- A failure of input or output elsewhere. -/
  | io (cause : String)
  deriving DecidableEq, Repr

namespace ResponseError

def message : ResponseError → String
  | invalidSelector error => "Invalid fields selector: " ++ error.message
  | json cause => "JSON serialization failed: " ++ cause
  | io cause => "I/O error: " ++ cause

def isClientError : ResponseError → Bool
  | invalidSelector _ => true
  | json _ | io _ => false

end ResponseError

namespace Response

/-- What a resource is cut down to: what a new pruner leaves of it, when fields are asked for. -/
def select (tree : Json) (fields : Option FieldSet) (ignoreCase : Bool) : Json :=
  match fields with
  | some set => ((Prune.Pruner.new (set.selects ignoreCase) true).apply tree).1
  | none => tree

def style (pretty : Bool) : Json.Style :=
  if pretty then .indented else .compact

/-- Sends what a resource is cut down to. -/
def send (sink : Sink) (tree : Json) (fields : Option FieldSet) (ignoreCase pretty : Bool) :
    Except ResponseError Unit × Sink :=
  let (result, sink) := sink.writeAll (Json.pieces (style pretty) 0 (select tree fields ignoreCase))
  (result.mapError .json, sink)

/-- Sends the response to a request. -/
def write (options : Options) (sink : Sink) (tree : Json) (request : Request) :
    Except ResponseError Unit × Sink :=
  match request.fields with
  | .error error => (.error (.invalidSelector error), sink)
  | .ok fields => send sink tree fields options.ignoreCase options.pretty

def bytes (options : Options) (tree : Json) (request : Request) :
    Except ResponseError (Array UInt8) :=
  let (result, sink) := write options .unlimited tree request
  result.map fun _ => sink.taken

end Response

end FieldMask
