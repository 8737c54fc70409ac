import Mathlib.Data.List.Basic
import Mathlib.Data.List.Induction

/- A file of text: its bytes, its lines, and its part up to the last newline. -/
namespace TextFile

def encode (text : List Char) : List UInt8 := text.flatMap String.utf8EncodeChar

/-- The text of some bytes, none where they are not UTF-8. -/
def decode (bytes : List UInt8) : Option (List Char) :=
  bytes.toByteArray.utf8Decode?.map Array.toList

/-- Without the empty piece after a last newline. -/
def lessEmpty (pieces : List (List Char)) : List (List Char) :=
  if pieces.getLast? = some [] then pieces.dropLast else pieces

def lines (text : List Char) : List (List Char) := lessEmpty (text.splitOn '\n')

def endsNl (text : List Char) : Bool := text.getLast? = some '\n'

def newline : UInt8 := 10

/-- The bytes up to the last newline, none where there is no newline. -/
def truncated (bytes : List UInt8) : List UInt8 := (bytes.reverse.dropWhile (· ≠ newline)).reverse

section
variable {text whole tail line : List Char} {bytes more : List UInt8}

/- Bytes. -/

@[simp] theorem encode_nil : encode [] = [] := rfl

@[simp] theorem encode_append (a b : List Char) : encode (a ++ b) = encode a ++ encode b :=
  List.flatMap_append

theorem encode_bytes (text : List Char) : (encode text).toByteArray = text.utf8Encode := rfl

@[simp] theorem decode_encode (text : List Char) : decode (encode text) = some text := by
  unfold decode
  rw [encode_bytes, List.utf8Decode?_utf8Encode]
  rfl

theorem encode_decode (decoded : decode bytes = some text) : encode text = bytes := by
  unfold decode at decoded
  obtain ⟨chars, read, same⟩ := Option.map_eq_some_iff.mp decoded
  have valid : bytes.toByteArray.utf8Decode?.isSome := by rw [read]; rfl
  have back := ByteArray.utf8Encode_get_utf8Decode? (b := bytes.toByteArray) (h := valid)
  simp only [read, Option.get_some] at back
  rw [same, ← encode_bytes] at back
  exact List.toByteArray_inj.mp back

/-- A natural number's text says which it is. -/
theorem toString_injective {m n : Nat} (same : toString m = toString n) : m = n := by
  have digits := congrArg String.toList same
  rw [Nat.toString_eq_repr, Nat.toString_eq_repr, Nat.toList_repr, Nat.toList_repr] at digits
  have values := congrArg (fun digits => Nat.ofDigitChars 10 digits 0) digits
  simpa using values

theorem encode_injective {a b : List Char} (same : encode a = encode b) : a = b := by
  have decoded := decode_encode a
  rw [same, decode_encode] at decoded
  injection decoded with decoded
  exact decoded.symm

/-- Where a file and its beginning are both texts, so is what was added to it. -/
theorem decode_rest (first : decode bytes = some whole) (all : decode (bytes ++ more) = some text) :
    ∃ added, text = whole ++ added ∧ encode added = more := by
  have bytes_of := encode_decode first
  have all_of := encode_decode all
  have beginning : whole <+: text := by
    apply List.isPrefix_of_utf8Encode_append_eq_utf8Encode more.toByteArray
    rw [← encode_bytes, ← encode_bytes, ← List.toByteArray_append, bytes_of, all_of]
  obtain ⟨added, same⟩ := beginning
  refine ⟨added, same.symm, ?_⟩
  rw [← same, encode_append, bytes_of] at all_of
  exact List.append_cancel_left all_of

/- Lines. -/

/-- Nothing, or whole lines. -/
def Ended (text : List Char) : Prop := text = [] ∨ ∃ before, text = before ++ ['\n']

/-- Every text is whole lines and a piece that no newline ends. -/
theorem ended_tail (text : List Char) :
    ∃ whole tail, text = whole ++ tail ∧ Ended whole ∧ '\n' ∉ tail := by
  induction text using List.reverseRecOn with
  | nil => exact ⟨[], [], rfl, Or.inl rfl, by simp⟩
  | append_singleton before c ih =>
    by_cases newline : c = '\n'
    · exact ⟨before ++ [c], [], by simp, Or.inr ⟨before, by rw [newline]⟩, by simp⟩
    · obtain ⟨whole, tail, parted, ended, line⟩ := ih
      refine ⟨whole, tail ++ [c], by rw [parted, List.append_assoc], ended, ?_⟩
      simp [line, Ne.symm newline]

theorem ended_then_newline (text : List Char) : Ended (text ++ ['\n']) := Or.inr ⟨text, rfl⟩

theorem endsNl_ended (ended : Ended text) (filled : text ≠ []) : endsNl text = true := by
  rcases ended with same | ⟨before, same⟩
  · exact absurd same filled
  · unfold endsNl
    rw [same, List.getLast?_concat]
    rfl

theorem endsNl_tail (line : '\n' ∉ tail) (filled : tail ≠ []) : endsNl (whole ++ tail) = false := by
  unfold endsNl
  rw [List.getLast?_append_of_ne_nil _ filled]
  simp only [decide_eq_false_iff_not]
  intro last
  exact line (List.mem_of_getLast? last)

theorem lines_newline (before : List Char) : lines (before ++ ['\n']) = before.splitOn '\n' := by
  have pieces := List.splitOn_append_cons_self before [] (a := '\n')
  unfold lines lessEmpty
  rw [pieces, List.splitOn_nil, List.getLast?_concat, if_pos rfl, List.dropLast_concat]

theorem lines_tail (line : '\n' ∉ tail) (filled : tail ≠ []) (ended : Ended whole) :
    lines (whole ++ tail) = lines whole ++ [tail] := by
  have single := List.splitOn_eq_singleton line
  rcases ended with same | ⟨before, same⟩
  · rw [same]
    unfold lines lessEmpty
    rw [List.nil_append, single]
    simp [filled]
  · have pieces := List.splitOn_append_cons_self before tail (a := '\n')
    rw [same, lines_newline]
    unfold lines lessEmpty
    rw [List.append_assoc, List.singleton_append, pieces, single, List.getLast?_concat,
      if_neg (by simpa using filled)]

theorem lines_line (line_of : '\n' ∉ line) (ended : Ended whole) :
    lines (whole ++ (line ++ ['\n'])) = lines whole ++ [line] := by
  have single := List.splitOn_eq_singleton line_of
  rw [← List.append_assoc, lines_newline]
  rcases ended with same | ⟨before, same⟩
  · rw [same, List.nil_append, single]
    rfl
  · rw [same, lines_newline, List.append_assoc, List.singleton_append,
      List.splitOn_append_cons_self, single]

/- The bytes of whole lines. -/

theorem newline_byte {c : Char} (other : c ≠ '\n') : newline ∉ String.utf8EncodeChar c := by
  have value : c.val.toNat ≠ 10 := by
    intro same
    apply other
    apply Char.ext
    exact UInt32.toNat_inj.mp same
  have apart : ∀ n : Nat, n % 256 ≠ 10 → newline ≠ UInt8.ofNat n := by
    intro n differ same
    have numbers := congrArg UInt8.toNat same
    rw [UInt8.toNat_ofNat'] at numbers
    exact differ numbers.symm
  unfold String.utf8EncodeChar
  simp only
  split
  · simp only [List.mem_singleton]
    exact apart _ (by omega)
  · split
    · simp only [List.mem_cons, List.not_mem_nil, or_false, not_or]
      exact ⟨apart _ (by omega), apart _ (by omega)⟩
    · split
      · simp only [List.mem_cons, List.not_mem_nil, or_false, not_or]
        exact ⟨apart _ (by omega), apart _ (by omega), apart _ (by omega)⟩
      · simp only [List.mem_cons, List.not_mem_nil, or_false, not_or]
        exact ⟨apart _ (by omega), apart _ (by omega), apart _ (by omega), apart _ (by omega)⟩

theorem newline_encode (line : '\n' ∉ tail) : newline ∉ encode tail := by
  unfold encode
  rw [List.mem_flatMap]
  rintro ⟨c, mem, byte⟩
  have other : c ≠ '\n' := by
    rintro rfl
    exact line mem
  exact newline_byte other byte

/-- What follows the last newline is cut off. -/
theorem truncated_append {rest : List UInt8} (ended : Ended whole) (unended : newline ∉ rest) :
    truncated (encode whole ++ rest) = encode whole := by
  have skipped : (rest.reverse ++ (encode whole).reverse).dropWhile (· ≠ newline) =
      (encode whole).reverse.dropWhile (· ≠ newline) := by
    apply List.dropWhile_append_of_pos
    intro b mem
    rw [List.mem_reverse] at mem
    rw [decide_eq_true_eq]
    rintro rfl
    exact unended mem
  have stops : (encode whole).reverse.dropWhile (· ≠ newline) = (encode whole).reverse := by
    rcases ended with same | ⟨before, same⟩
    · rw [same]
      rfl
    · have last : encode ['\n'] = [newline] := rfl
      rw [same, encode_append, last, List.reverse_concat, List.dropWhile_cons_of_neg (by simp)]
  unfold truncated
  rw [List.reverse_append, skipped, stops, List.reverse_reverse]

theorem truncated_encode (line : '\n' ∉ tail) (ended : Ended whole) :
    truncated (encode (whole ++ tail)) = encode whole := by
  rw [encode_append]
  exact truncated_append ended (newline_encode line)

end

end TextFile
