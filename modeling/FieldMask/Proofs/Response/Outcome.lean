import FieldMask.Proofs.Sinks
import FieldMask.Proofs.Prune.Questions

/-!
# What becomes of a response

A malformed selector that is not bypassed is the answer itself, and nothing is sent.  Else the answer is a
tree, whose text is sent as far as there is room for it.  These are all the cases there are
(`write_iff_outcome`).
-/

namespace FieldMask.Response

open Selector (SyntaxError)

/-- Whether the selector of a request is read and malformed. -/
def Malformed (request : Request) (error : SyntaxError) : Prop :=
  request.bypass = false ∧
    ∃ selector, request.selector = some selector ∧ FieldSet.parse selector = .error error

/-- What a request gets of a tree if no malformed selector of it is read. -/
inductive Answer (request : Request) (ignoreCase : Bool) (tree : Json) : Json → Prop
  | bypassed (h : request.bypass = true) : Answer request ignoreCase tree tree
  | unasked (h : request.selector = none) : Answer request ignoreCase tree tree
  | selected {selector : String} {set : FieldSet} (hbypass : request.bypass = false)
      (hselector : request.selector = some selector) (hset : FieldSet.parse selector = .ok set) :
      Answer request ignoreCase tree (tree.filter (set.selects ignoreCase))

/-- The bytes of a tree in the layout of the options. -/
def body (options : Options) (answer : Json) : List UInt8 :=
  Text.Utf8.encode (answer.render (if options.pretty then .indented else .compact)).toList

/-- The result of a response and the bytes sent, for the room that a sink has. -/
inductive Outcome (options : Options) (sink : Sink) (tree : Json) (request : Request) :
    Except ResponseError Unit → List UInt8 → Prop
  | rejected {error : SyntaxError} (h : Malformed request error) :
      Outcome options sink tree request (.error (.invalidSelector error)) []
  | complete {answer : Json} (h : Answer request options.ignoreCase tree answer)
      (hfits : sink.Fits (body options answer)) :
      Outcome options sink tree request (.ok ()) (body options answer)
  | cut {answer : Json} {room : Nat} (h : Answer request options.ignoreCase tree answer)
      (hroom : sink.room = some room) (hlong : room < (body options answer).length) :
      Outcome options sink tree request (.error (.json sink.complaint))
        ((body options answer).take room)

/-! ## The fields of a request -/

theorem fields_of_malformed
    {request : Request} {error : SyntaxError} (h : Malformed request error) :
    request.fields = .error error := by
  obtain ⟨hbypass, selector, hselector, hparse⟩ := h
  simp only [Request.fields, hbypass, hselector, hparse]
  rfl

theorem fields_of_answer
    {request : Request} {ignoreCase : Bool} {tree answer : Json}
    (h : Answer request ignoreCase tree answer) :
    ∃ fields, request.fields = .ok fields ∧ select tree fields ignoreCase = answer := by
  cases h with
  | bypassed hbypass => exact ⟨none, by simp [Request.fields, hbypass], rfl⟩
  | unasked hselector => exact ⟨none, by simp [Request.fields, hselector], rfl⟩
  | selected hbypass hselector hset =>
      refine ⟨some _, ?_, select_some tree _ ignoreCase⟩
      simp only [Request.fields, hbypass, hselector, hset]
      rfl

theorem malformed_or_answer
    (request : Request) (ignoreCase : Bool) (tree : Json) :
    (∃ error, Malformed request error) ∨ ∃ answer, Answer request ignoreCase tree answer := by
  by_cases hbypass : request.bypass = true
  · exact Or.inr ⟨tree, .bypassed hbypass⟩
  · rw [Bool.not_eq_true] at hbypass
    cases hselector : request.selector with
    | none => exact Or.inr ⟨tree, .unasked hselector⟩
    | some selector =>
        cases hparse : FieldSet.parse selector with
        | error error => exact Or.inl ⟨error, hbypass, selector, hselector, hparse⟩
        | ok set => exact Or.inr ⟨_, .selected hbypass hselector hparse⟩

/-! ## The cases -/

/-- What is sent of an answer is offered as one text. -/
theorem write_of_answer
    {options : Options} {request : Request} {tree answer : Json}
    (h : Answer request options.ignoreCase tree answer) (sink : Sink) :
    write options sink tree request =
      ((sink.write (body options answer)).1.mapError .json, (sink.write (body options answer)).2) := by
  obtain ⟨fields, hfields, hselect⟩ := fields_of_answer h
  rw [write, hfields]
  simp only [send, hselect, Sink.writeAll_eq_write]
  rfl

theorem write_of_outcome
    {options : Options} {sink : Sink} {tree : Json} {request : Request}
    {result : Except ResponseError Unit} {sent : List UInt8}
    (h : Outcome options sink tree request result sent) :
    (write options sink tree request).1 = result ∧
      (write options sink tree request).2.taken = sink.taken ++ sent := by
  cases h with
  | rejected hmalformed =>
      rw [write, fields_of_malformed hmalformed]
      exact ⟨rfl, by simp⟩
  | complete hanswer hfits =>
      obtain ⟨hresult, htaken⟩ := Sink.write_of_fits hfits
      rw [write_of_answer hanswer, hresult, htaken]
      exact ⟨rfl, rfl⟩
  | cut hanswer hroom hlong =>
      obtain ⟨hresult, htaken⟩ := Sink.write_of_lt hroom hlong
      rw [write_of_answer hanswer, hresult, htaken]
      exact ⟨rfl, rfl⟩

theorem exists_outcome
    (options : Options) (sink : Sink) (tree : Json) (request : Request) :
    ∃ result sent, Outcome options sink tree request result sent := by
  rcases malformed_or_answer request options.ignoreCase tree with ⟨error, hmalformed⟩ | ⟨answer, hanswer⟩
  · exact ⟨_, _, .rejected hmalformed⟩
  · rcases sink.fits_or_lt (body options answer) with hfits | ⟨room, hroom, hlong⟩
    · exact ⟨_, _, .complete hanswer hfits⟩
    · exact ⟨_, _, .cut hanswer hroom hlong⟩

/-- The result that a response has is that of some case. -/
theorem exists_outcome_of_write
    {options : Options} {sink : Sink} {tree : Json} {request : Request}
    {result : Except ResponseError Unit} (h : (write options sink tree request).1 = result) :
    ∃ sent, Outcome options sink tree request result sent := by
  obtain ⟨actual, sent, houtcome⟩ := exists_outcome options sink tree request
  obtain rfl : actual = result := (write_of_outcome houtcome).1.symm.trans h
  exact ⟨sent, houtcome⟩

theorem outcome_iff
    {options : Options} {sink : Sink} {tree : Json} {request : Request}
    {result : Except ResponseError Unit} {sent : List UInt8} :
    Outcome options sink tree request result sent ↔
      (write options sink tree request).1 = result ∧
        (write options sink tree request).2.taken = sink.taken ++ sent := by
  constructor
  · exact write_of_outcome
  · rintro ⟨hresult, htaken⟩
    obtain ⟨bytes, houtcome⟩ := exists_outcome_of_write hresult
    have hbytes : bytes = sent := by
      have hlists := congrArg Array.toList ((write_of_outcome houtcome).2.symm.trans htaken)
      simpa using hlists
    rw [← hbytes]
    exact houtcome

theorem write_eq_invalidSelector_iff
    {options : Options} {sink : Sink} {tree : Json} {request : Request} {error : SyntaxError} :
    (write options sink tree request).1 = .error (.invalidSelector error) ↔
      Malformed request error := by
  constructor
  · intro hresult
    obtain ⟨sent, houtcome⟩ := exists_outcome_of_write hresult
    cases houtcome with
    | rejected hmalformed => exact hmalformed
  · intro hmalformed
    exact (write_of_outcome (.rejected hmalformed)).1

theorem write_ne_io
    (options : Options) (sink : Sink) (tree : Json) (request : Request) (cause : String) :
    (write options sink tree request).1 ≠ .error (.io cause) := by
  intro hresult
  obtain ⟨sent, houtcome⟩ := exists_outcome_of_write hresult
  cases houtcome

/-- What a sink has taken before and what it would complain of make no difference if it never fails. -/
theorem Outcome.of_room_eq_none
    {options : Options} {sink other : Sink} {tree : Json} {request : Request}
    {result : Except ResponseError Unit} {sent : List UInt8}
    (h : Outcome options sink tree request result sent) (hsink : sink.room = none)
    (hother : other.room = none) :
    Outcome options other tree request result sent := by
  cases h with
  | rejected hmalformed => exact .rejected hmalformed
  | complete hanswer hfits => exact .complete hanswer (Sink.fits_of_room_eq_none hother _)
  | cut hanswer hroom hlong =>
      rw [hsink] at hroom
      cases hroom

theorem bytes_eq
    (options : Options) (tree : Json) (request : Request) (complaint : String) :
    bytes options tree request =
      (write options ⟨#[], none, complaint⟩ tree request).1.map fun _ =>
        (write options ⟨#[], none, complaint⟩ tree request).2.taken := by
  obtain ⟨result, sent, houtcome⟩ := exists_outcome options ⟨#[], none, complaint⟩ tree request
  have hunlimited : Outcome options .unlimited tree request result sent :=
    houtcome.of_room_eq_none rfl rfl
  obtain ⟨hresult, htaken⟩ := write_of_outcome houtcome
  obtain ⟨hresult', htaken'⟩ := write_of_outcome hunlimited
  rw [hresult, htaken]
  calc
    bytes options tree request =
        (write options .unlimited tree request).1.map fun _ =>
          (write options .unlimited tree request).2.taken := rfl
    _ = result.map fun _ => #[] ++ sent := by
      rw [hresult', htaken']
      rfl

/-- A response is rejected, complete or cut short, and its result and the bytes sent are those of the case.
The client is to blame in the first case only, no failure is called one of input or output, and the bytes of a
response are those that a sink takes that never fails. -/
theorem write_iff_outcome
    (options : Options) (sink : Sink) (tree : Json) (request : Request) :
    (∀ result sent, Outcome options sink tree request result sent ↔
      (write options sink tree request).1 = result ∧
        (write options sink tree request).2.taken = sink.taken ++ sent) ∧
    (∀ error, (write options sink tree request).1 = .error (.invalidSelector error) ↔
      Malformed request error) ∧
    ((∃ error, (write options sink tree request).1 = .error error ∧ error.isClientError = true) ↔
      ∃ error, Malformed request error) ∧
    (∀ cause, (write options sink tree request).1 ≠ .error (.io cause)) ∧
    ∀ complaint,
      bytes options tree request =
        (write options ⟨#[], none, complaint⟩ tree request).1.map fun _ =>
          (write options ⟨#[], none, complaint⟩ tree request).2.taken := by
  refine ⟨fun _ _ => outcome_iff, fun _ => write_eq_invalidSelector_iff, ?_,
    write_ne_io options sink tree request, bytes_eq options tree request⟩
  constructor
  · rintro ⟨error, hresult, hclient⟩
    cases error with
    | invalidSelector error => exact ⟨error, write_eq_invalidSelector_iff.mp hresult⟩
    | json | io => cases hclient
  · rintro ⟨error, hmalformed⟩
    exact ⟨.invalidSelector error, write_eq_invalidSelector_iff.mpr hmalformed, rfl⟩

example :
    let request : Request := { selector := some "a,", bypass := true }
    let response := write {} (.limited 3 "no room") (.array [.null]) request
    response.1 = .error (.json "no room") ∧ response.2.taken = "[nu".toUTF8.data :=
  ⟨rfl, rfl⟩

end FieldMask.Response
