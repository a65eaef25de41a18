import HookScript.Text.Utf8

/-!
Decoding undoes encoding. One step of decoding takes exactly the bytes that one character is encoded as, so every text
comes back from its bytes. A byte below 80 stands for itself wherever it is met.
-/

namespace HookScript.Text.Utf8

theorem toNat_ofNat {n : Nat} (small : n < 0x100) : (UInt8.ofNat n).toNat = n := UInt8.toNat_ofNat_of_lt small

theorem ofNat_eq {n : Nat} (small : n < 0x100) {b : UInt8} : UInt8.ofNat n = b ↔ n = b.toNat := by
  rw [← UInt8.toNat_inj, toNat_ofNat small]

theorem finish_ofNat {n m code : Nat} {low high : UInt8} {rest : List UInt8} (small : m < 0x100) (above : low.toNat ≤ m)
    (below : m ≤ high.toNat) :
    finish (n + 1) low high code (UInt8.ofNat m :: rest) = finish n 0x80 0xBF (code * 64 + (m - 0x80)) rest := by
  rw [finish, if_pos, toNat_ofNat small]
  rw [UInt8.le_iff_toNat_le, UInt8.le_iff_toNat_le, toNat_ofNat small]
  exact ⟨above, below⟩

namespace Lead

variable {n : Nat}

theorem ofByte?_ofNat (small : n < 0x100) : ofByte? (UInt8.ofNat n) =
    if n < 0x80 then some ⟨n, 0, 0x80, 0xBF⟩
    else if n < 0xC2 then none
    else if n < 0xE0 then some ⟨n - 0xC0, 1, 0x80, 0xBF⟩
    else if n = 0xE0 then some ⟨0x0, 2, 0xA0, 0xBF⟩
    else if n = 0xED then some ⟨0xD, 2, 0x80, 0x9F⟩
    else if n < 0xF0 then some ⟨n - 0xE0, 2, 0x80, 0xBF⟩
    else if n = 0xF0 then some ⟨0x0, 3, 0x90, 0xBF⟩
    else if n < 0xF4 then some ⟨n - 0xF0, 3, 0x80, 0xBF⟩
    else if n = 0xF4 then some ⟨0x4, 3, 0x80, 0x8F⟩
    else none := by
  simp only [ofByte?, UInt8.lt_iff_toNat_lt, ofNat_eq small, toNat_ofNat small, UInt8.reduceToNat]

theorem ofByte?_one (high : n < 0x80) : ofByte? (UInt8.ofNat n) = some ⟨n, 0, 0x80, 0xBF⟩ := by
  rw [ofByte?_ofNat (by omega), if_pos high]

theorem ofByte?_two (low : 0xC2 ≤ n) (high : n < 0xE0) : ofByte? (UInt8.ofNat n) = some ⟨n - 0xC0, 1, 0x80, 0xBF⟩ := by
  rw [ofByte?_ofNat (by omega), if_neg (by omega), if_neg (by omega), if_pos high]

theorem ofByte?_three (low : 0xE0 ≤ n) (high : n < 0xF0) : ofByte? (UInt8.ofNat n) =
    some ⟨n - 0xE0, 2, if n = 0xE0 then 0xA0 else 0x80, if n = 0xED then 0x9F else 0xBF⟩ := by
  rw [ofByte?_ofNat (by omega), if_neg (by omega), if_neg (by omega), if_neg (by omega), if_pos high]
  by_cases first : n = 0xE0
  · subst first
    rfl
  · by_cases surrogate : n = 0xED
    · subst surrogate
      rfl
    · simp only [first, surrogate, if_false]

theorem ofByte?_four (low : 0xF0 ≤ n) (high : n < 0xF5) : ofByte? (UInt8.ofNat n) =
    some ⟨n - 0xF0, 3, if n = 0xF0 then 0x90 else 0x80, if n = 0xF4 then 0x8F else 0xBF⟩ := by
  rw [ofByte?_ofNat (by omega), if_neg (by omega), if_neg (by omega), if_neg (by omega), if_neg (by omega),
    if_neg (by omega), if_neg (by omega)]
  by_cases first : n = 0xF0
  · subst first
    rfl
  · by_cases last : n = 0xF4
    · subst last
      rfl
    · rw [if_neg first, if_pos (by omega), if_neg first, if_neg last]

end Lead

theorem step_utf8EncodeChar (c : Char) (rest : List UInt8) : ∃ b later, String.utf8EncodeChar c = b :: later ∧
    step b (later ++ rest) = (some c, rest) := by
  have again : Char.ofNat c.val.toNat = c := Char.ofNat_toNat c
  have valid : c.val.toNat < 0xD800 ∨ 0xDFFF < c.val.toNat ∧ c.val.toNat < 0x110000 := c.valid
  rw [String.utf8EncodeChar]
  generalize c.val.toNat = n at *
  split
  · next one =>
    refine ⟨_, [], rfl, ?_⟩
    rw [step, Lead.ofByte?_one (by omega)]
    simp only [finish, again, List.nil_append]
  · split
    · next two =>
      refine ⟨_, [_], rfl, ?_⟩
      rw [step, Lead.ofByte?_two (by omega) (by omega)]
      simp only [List.cons_append, List.nil_append]
      rw [finish_ofNat (by omega) (by simp) (by simp; omega), finish]
      rw [show (n / 64 % 32 + 192 - 0xC0) * 64 + (n % 64 + 128 - 0x80) = n by omega, again]
    · split
      · next three =>
        refine ⟨_, [_, _], rfl, ?_⟩
        rw [step, Lead.ofByte?_three (by omega) (by omega)]
        simp only [List.cons_append, List.nil_append]
        rw [finish_ofNat (by omega) ?low ?high, finish_ofNat (by omega) (by simp) (by simp; omega), finish]
        · have sum : ((n / 4096 % 16 + 224 - 0xE0) * 64 + (n / 64 % 64 + 128 - 0x80)) * 64 + (n % 64 + 128 - 0x80) = n := by
            omega
          rw [sum, again]
        case low => split <;> simp only [UInt8.reduceToNat] <;> omega
        case high => split <;> simp only [UInt8.reduceToNat] <;> omega
      · next four =>
        refine ⟨_, [_, _, _], rfl, ?_⟩
        rw [step, Lead.ofByte?_four (by omega) (by omega)]
        simp only [List.cons_append, List.nil_append]
        rw [finish_ofNat (by omega) ?low ?high, finish_ofNat (by omega) (by simp) (by simp; omega),
          finish_ofNat (by omega) (by simp) (by simp; omega), finish]
        · have sum : (((n / 262144 % 8 + 240 - 0xF0) * 64 + (n / 4096 % 64 + 128 - 0x80)) * 64 +
              (n / 64 % 64 + 128 - 0x80)) * 64 + (n % 64 + 128 - 0x80) = n := by
            omega
          rw [sum, again]
        case low => split <;> simp only [UInt8.reduceToNat] <;> omega
        case high => split <;> simp only [UInt8.reduceToNat] <;> omega

theorem encode_append (s t : String) : encode (s ++ t) = encode s ++ encode t := by
  simp only [encode, String.toList_append, List.flatMap_append]

theorem scalars_encode (chars : List Char) : scalars (chars.flatMap String.utf8EncodeChar) = chars.map some := by
  induction chars with
  | nil => rw [List.flatMap_nil, scalars, List.map_nil]
  | cons c others ih =>
    obtain ⟨b, later, bytes, taken⟩ := step_utf8EncodeChar c (others.flatMap String.utf8EncodeChar)
    rw [List.flatMap_cons, bytes, List.cons_append, scalars, taken, List.map_cons]
    exact congrArg (some c :: ·) ih

theorem decode?_encode (text : String) : decode? (encode text) = some text := by
  have each : text.toList.mapM (fun c => pure c) = some (text.toList.map id) := List.mapM_pure
  rw [decode?, encode, scalars_encode, List.mapM_map]
  refine (congrArg (Option.map String.ofList) each).trans ?_
  rw [List.map_id, Option.map_some, String.ofList_toList]

theorem decodeLenient_encode (text : String) : decodeLenient (encode text) = text := by
  rw [decodeLenient, encode, scalars_encode, List.map_map]
  have same : text.toList.map ((·.getD '\uFFFD') ∘ some) = text.toList := List.map_id _
  rw [same, String.ofList_toList]

theorem utf8EncodeChar_of_lt {c : Char} (small : c.toNat < 0x80) : String.utf8EncodeChar c = [UInt8.ofNat c.toNat] := by
  rw [String.utf8EncodeChar]
  exact if_pos (show c.toNat ≤ 127 by omega)

theorem toNat_of_mem_utf8EncodeChar {c : Char} {b : UInt8} (among : b ∈ String.utf8EncodeChar c) (small : b.toNat < 0x80) :
    b.toNat = c.toNat := by
  have value : c.val.toNat = c.toNat := rfl
  have valid : c.toNat < 0x110000 := by
    have : c.toNat < 0xD800 ∨ 0xDFFF < c.toNat ∧ c.toNat < 0x110000 := c.valid
    omega
  rw [String.utf8EncodeChar, value] at among
  split at among
  · next one =>
    cases List.mem_singleton.mp among
    exact toNat_ofNat (by omega)
  · have large {m : Nat} (same : b = UInt8.ofNat m) (low : 0x80 ≤ m) (high : m < 0x100) : b.toNat = c.toNat := by
      rw [same, toNat_ofNat high] at small
      omega
    split at among
    · simp only [List.mem_cons, List.not_mem_nil, or_false] at among
      rcases among with same | same <;> exact large same (by omega) (by omega)
    · split at among <;> simp only [List.mem_cons, List.not_mem_nil, or_false] at among
      · rcases among with same | same | same <;> exact large same (by omega) (by omega)
      · rcases among with same | same | same | same <;> exact large same (by omega) (by omega)

theorem exists_chars {chars : List Char} {before later : List UInt8} {b : UInt8} (small : b.toNat < 0x80)
    (same : chars.flatMap String.utf8EncodeChar = before ++ b :: later) : ∃ front back, chars = front ++ back ∧
      front.flatMap String.utf8EncodeChar = before ++ [b] ∧ back.flatMap String.utf8EncodeChar = later := by
  induction chars generalizing before with
  | nil => simp at same
  | cons c others ih =>
    rw [List.flatMap_cons] at same
    rcases List.append_eq_append_iff.1 same with ⟨more, rfl, rest⟩ | ⟨more, bytes, rest⟩
    · obtain ⟨front, back, rfl, here, there⟩ := ih rest
      exact ⟨c :: front, back, rfl, by rw [List.flatMap_cons, here, List.append_assoc], there⟩
    · cases more with
      | nil =>
        rw [List.append_nil] at bytes
        obtain ⟨front, back, rfl, here, there⟩ := @ih [] rest.symm
        exact ⟨c :: front, back, rfl, by rw [List.flatMap_cons, here, bytes]; rfl, there⟩
      | cons first more =>
        obtain ⟨rfl, rfl⟩ := List.cons.inj rest
        have value := toNat_of_mem_utf8EncodeChar (bytes ▸ List.mem_append_right before List.mem_cons_self) small
        have single := bytes.symm.trans (utf8EncodeChar_of_lt (value ▸ small))
        obtain ⟨rfl, rfl⟩ : before = [] ∧ more = [] := by
          have size := congrArg List.length single
          simp only [List.length_append, List.length_cons, List.length_nil] at size
          exact ⟨List.eq_nil_of_length_eq_zero (by omega), List.eq_nil_of_length_eq_zero (by omega)⟩
        exact ⟨[c], others, rfl, by rw [List.flatMap_cons, bytes]; rfl, rfl⟩

theorem exists_texts {text : String} {before later : List UInt8} {b : UInt8} (small : b.toNat < 0x80)
    (same : encode text = before ++ b :: later) :
    ∃ front back, text = front ++ back ∧ encode front = before ++ [b] ∧ encode back = later := by
  obtain ⟨front, back, chars, here, there⟩ := exists_chars small same
  refine ⟨.ofList front, .ofList back, String.toList_injective ?_, ?_, ?_⟩
  · rw [chars, String.toList_append, String.toList_ofList, String.toList_ofList]
  · rw [encode, String.toList_ofList, here]
  · rw [encode, String.toList_ofList, there]

theorem step_nil {b : UInt8} (large : 0x80 ≤ b.toNat) : (step b []).1 = none := by
  have follows : ∀ lead ∈ Lead.ofByte? b, lead.following ≠ 0 := by
    intro lead known
    have noAscii : ¬ b < 0x80 := fun small => absurd (UInt8.lt_iff_toNat_lt.1 small) (Nat.not_lt.2 large)
    rw [Option.mem_def, Lead.ofByte?, if_neg noAscii] at known
    repeat' split at known
    all_goals
      simp only [Option.some.injEq, reduceCtorEq] at known
      try simp [← known]
  unfold step
  split
  · rfl
  · next lead known =>
    obtain ⟨n, more⟩ := Nat.exists_eq_succ_of_ne_zero (follows lead known)
    rw [more]
    rfl

theorem head?_encode_decodeLenient {b : UInt8} (small : b.toNat < 0x80) (rest : List UInt8) :
    (encode (decodeLenient (b :: rest))).head? = some b := by
  have taken : step b rest = (some (Char.ofNat b.toNat), rest) := by
    have lead := Lead.ofByte?_one small
    rw [UInt8.ofNat_toNat] at lead
    rw [step, lead]
    rfl
  have same : (Char.ofNat b.toNat).toNat = b.toNat := by
    rw [Char.ofNat, dif_pos (.inl (by omega))]
    rfl
  have bytes := utf8EncodeChar_of_lt (Nat.lt_of_le_of_lt (Nat.le_of_eq same) small)
  rw [same, UInt8.ofNat_toNat] at bytes
  rw [decodeLenient, scalars, taken, encode, String.toList_ofList, List.map_cons, List.flatMap_cons, Option.getD_some, bytes]
  rfl

theorem head?_encode_replacement {b : UInt8} (large : 0x80 ≤ b.toNat) :
    (encode (decodeLenient [b])).head? = some 0xEF := by
  rw [decodeLenient, scalars, step_nil large, encode, String.toList_ofList, List.map_cons, List.flatMap_cons]
  rfl

end HookScript.Text.Utf8
