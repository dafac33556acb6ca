import FieldMask.Sink

/-!
# What a sink takes

A sink cannot tell how a text is cut into pieces: offering the pieces one after the other is offering the
bytes of the whole text at once (`writeAll_eq_write`).  The sink takes them all if there is room for them, and
else it takes what fits and complains.
-/

namespace FieldMask.Sink

def Fits (sink : Sink) (bytes : List UInt8) : Prop :=
  ∀ room, sink.room = some room → bytes.length ≤ room

theorem fits_of_room_eq_none
    {sink : Sink} (h : sink.room = none) (bytes : List UInt8) :
    sink.Fits bytes := by
  intro room hroom
  rw [h] at hroom
  cases hroom

theorem fits_or_lt
    (sink : Sink) (bytes : List UInt8) :
    sink.Fits bytes ∨ ∃ room, sink.room = some room ∧ room < bytes.length := by
  cases hroom : sink.room with
  | none => exact Or.inl (fits_of_room_eq_none hroom bytes)
  | some room =>
      by_cases hlong : room < bytes.length
      · exact Or.inr ⟨room, rfl, hlong⟩
      · left
        intro other hother
        obtain rfl : room = other := by simpa [hroom] using hother
        exact Nat.not_lt.mp hlong

theorem write_of_fits
    {sink : Sink} {bytes : List UInt8} (h : sink.Fits bytes) :
    (sink.write bytes).1 = .ok () ∧ (sink.write bytes).2.taken = sink.taken ++ bytes := by
  cases hroom : sink.room with
  | none => simp [write, hroom]
  | some room =>
      have hlength : bytes.length ≤ room := h room hroom
      simp [write, hroom, hlength, List.take_of_length_le hlength]

theorem write_of_lt
    {sink : Sink} {bytes : List UInt8} {room : Nat} (hroom : sink.room = some room)
    (h : room < bytes.length) :
    (sink.write bytes).1 = .error sink.complaint ∧
      (sink.write bytes).2.taken = sink.taken ++ bytes.take room := by
  simp [write, hroom, Nat.not_le.mpr h]

theorem write_nil
    (sink : Sink) :
    sink.write [] = (.ok (), sink) := by
  obtain ⟨taken, room, complaint⟩ := sink
  cases room <;> simp [write]

theorem taken_append_assoc
    (taken : Array UInt8) (bytes others : List UInt8) :
    taken ++ (bytes ++ others) = taken ++ bytes ++ others := by
  apply Array.toList_inj.mp
  simp

/-- Two offers in turn are one, unless the first has failed. -/
theorem write_append
    (sink : Sink) (bytes others : List UInt8) :
    sink.write (bytes ++ others) =
      match sink.write bytes with
      | (.ok (), sink) => sink.write others
      | (.error complaint, sink) => (.error complaint, sink) := by
  obtain ⟨taken, room, complaint⟩ := sink
  cases room with
  | none => simp [write, taken_append_assoc]
  | some room =>
      by_cases h : bytes.length ≤ room
      · have hfits : bytes.length + others.length ≤ room ↔ others.length ≤ room - bytes.length := by
          omega
        simp [write, h, hfits, List.take_append, List.take_of_length_le h, Nat.sub_sub,
          taken_append_assoc]
      · have hover : ¬bytes.length + others.length ≤ room := by omega
        have hnone : room - bytes.length = 0 := by omega
        have hnone' : room - (bytes.length + others.length) = 0 := by omega
        simp [write, h, hover, List.take_append, hnone, hnone']

/-- It makes no difference into which pieces a text is cut. -/
theorem writeAll_eq_write
    (sink : Sink) (pieces : List String) :
    sink.writeAll pieces = sink.write (Text.Utf8.encode (String.join pieces).toList) := by
  induction pieces generalizing sink with
  | nil => exact (write_nil sink).symm
  | cons piece pieces ih =>
      rw [String.join_cons, String.toList_append, Text.Utf8.encode_append, write_append, writeAll]
      rcases sink.write (Text.Utf8.encode piece.toList) with ⟨result, after⟩
      cases result with
      | ok _ => exact ih after
      | error complaint => rfl

end FieldMask.Sink
