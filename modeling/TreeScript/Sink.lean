/-!
# Sinks

A sink collects the bytes that a run prints. It may be limited. A limited sink
takes what fits, also of a text that does not fit as a whole, and then fails in
one of two ways.
-/

namespace TreeScript

/-- What is appended does not show in the first bytes. -/
theorem extract_append_of_le {a b : ByteArray} {n : Nat} (h : n ≤ a.size) :
    (a ++ b).extract 0 n = a.extract 0 n := by
  rw [ByteArray.extract_append, Nat.sub_eq_zero_of_le h, Nat.zero_sub]
  simp

/-- How a full sink answers to a write. -/
inductive Sink.Full where
  /-- The write is an error. -/
  | refuses
  /-- The write takes nothing. -/
  | takesNothing
  deriving DecidableEq, Repr

/-- What a full sink gives as the reason. -/
def Sink.Full.reason : Sink.Full → String
  | .refuses => "sink full"
  | .takesNothing => "failed to write whole buffer"

structure Sink where
  written : ByteArray
  /-- How many bytes the sink takes in all, if it is limited. -/
  capacity : Option Nat
  whenFull : Sink.Full

namespace Sink

def unlimited : Sink :=
  ⟨.empty, none, .refuses⟩

def limited (capacity : Nat) (whenFull : Full) : Sink :=
  ⟨.empty, some capacity, whenFull⟩

/-- Writes a text as far as it fits, and gives the reason if it does not. -/
def write (s : Sink) (text : String) : Sink × Option String :=
  let all := s.written ++ text.toUTF8
  match s.capacity with
  | none => (⟨all, s.capacity, s.whenFull⟩, none)
  | some capacity =>
    if all.size ≤ capacity then (⟨all, s.capacity, s.whenFull⟩, none)
    else (⟨all.extract 0 capacity, s.capacity, s.whenFull⟩, some s.whenFull.reason)

/-- A sink without a limit takes everything. -/
@[simp] theorem write_of_capacity_eq_none {s : Sink} (h : s.capacity = none) (text : String) :
    s.write text = (⟨s.written ++ text.toUTF8, none, s.whenFull⟩, none) := by
  simp [write, h]

/-- No write changes what kind of sink it is. -/
@[simp] theorem capacity_write (s : Sink) (text : String) :
    (s.write text).1.capacity = s.capacity := by
  simp only [write]
  split
  · rfl
  · split <;> rfl

/-- A limited sink never holds more than its capacity. -/
theorem size_write_le {s : Sink} {capacity : Nat} (h : s.capacity = some capacity)
    (text : String) : (s.write text).1.written.size ≤ capacity := by
  simp only [write, h]
  split
  · assumption
  · simp only [ByteArray.size_extract]
    omega

/-- A text may be written piece by piece: the second piece follows the first if that fits, and is
not written otherwise. -/
theorem write_append (s : Sink) (first second : String) :
    s.write (first ++ second) =
      match s.write first with
      | (s, none) => s.write second
      | (s, some reason) => (s, some reason) := by
  have happend : s.written ++ (first ++ second).toUTF8 =
      s.written ++ first.toUTF8 ++ second.toUTF8 := ByteArray.append_assoc.symm
  unfold write
  rw [happend]
  obtain ⟨written, _ | capacity, whenFull⟩ := s
  · rfl
  · dsimp only
    by_cases hfirst : (written ++ first.toUTF8).size ≤ capacity
    · rw [if_pos hfirst]
    · -- the first piece fills the sink, and the second one cannot be seen
      have hlt := Nat.lt_of_not_le hfirst
      have hboth : ¬(written ++ first.toUTF8 ++ second.toUTF8).size ≤ capacity := by
        rw [ByteArray.size_append]
        omega
      rw [if_neg hfirst, if_neg hboth, extract_append_of_le (Nat.le_of_lt hlt)]

end Sink

end TreeScript
