/-!
A byte stream that arrives piece by piece, with interruptions and failures in between.
-/

namespace HookScript

structure ReadFailure where
  cause : String
  deriving DecidableEq, Repr

def ReadFailure.message (failure : ReadFailure) : String :=
  "failed to read source: " ++ failure.cause

/-- What a byte stream does when it is read. No bytes at all mean the end of the file for the moment. -/
inductive Delivery where
  | data (bytes : List UInt8)
  | interrupted
  | failed (failure : ReadFailure)
  deriving DecidableEq, Repr

namespace Delivery

/-- Answers one read of at most `capacity` bytes, again and again while it is interrupted. What does not fit
stays at the front of the stream. -/
def read (capacity : Nat) : List Delivery → Except ReadFailure (List UInt8) × List Delivery
  | [] => (.ok [], [])
  | .interrupted :: rest => read capacity rest
  | .failed failure :: rest => (.error failure, rest)
  | .data bytes :: rest =>
    (.ok (bytes.take capacity),
      match bytes.drop capacity with
      | [] => rest
      | left => .data left :: rest)

def size : Delivery → Nat
  | .data bytes => bytes.length + 1
  | _ => 1

def totalSize : List Delivery → Nat
  | [] => 0
  | d :: rest => d.size + totalSize rest

theorem totalSize_cons (d : Delivery) (rest : List Delivery) :
    totalSize (d :: rest) = d.size + totalSize rest := rfl

theorem read_size_le (capacity : Nat) (deliveries : List Delivery) :
    totalSize (read capacity deliveries).2 +
      (match (read capacity deliveries).1 with
        | .ok bytes => bytes.length
        | .error _ => 1) ≤ totalSize deliveries := by
  fun_induction read capacity deliveries with
  | case1 => simp
  | case2 rest ih => simp only [totalSize_cons, size]; omega
  | case3 => simp only [totalSize_cons, size]; omega
  | case4 bytes rest =>
    have whole := List.take_append_drop capacity bytes
    have lengths := congrArg List.length whole
    simp only [List.length_append] at lengths
    simp only [totalSize_cons, size]
    split
    · omega
    · simp only [totalSize_cons, size]; omega

theorem read_size_lt {capacity : Nat} (positive : 0 < capacity) {deliveries : List Delivery}
    (more : deliveries ≠ []) (nothing : (read capacity deliveries).1 = .ok []) :
    totalSize (read capacity deliveries).2 < totalSize deliveries := by
  fun_induction read capacity deliveries with
  | case1 => exact absurd rfl more
  | case2 rest ih =>
    have bound := read_size_le capacity rest
    rw [nothing] at bound
    simp only [totalSize_cons, size, List.length_nil] at *
    omega
  | case3 => simp at nothing
  | case4 bytes rest =>
    have empty : bytes = [] := by
      simp only [Except.ok.injEq, List.take_eq_nil_iff] at nothing
      rcases nothing with h | h
      · omega
      · exact h
    subst empty
    simp [totalSize_cons, size]

end Delivery

end HookScript
