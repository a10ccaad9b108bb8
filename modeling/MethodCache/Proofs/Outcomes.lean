import Mathlib.Data.String.Basic
import MethodCache.Proofs.Operators

/-!
How native methods end. Every call answers, except that a text which is to be made out of the
arguments can have more bytes than a text may have. Arguments whose own texts are not enormous
leave two ways to get there: repeating a text, and writing one in printable ASCII. A call whose
arguments are not there, or not of the types that the method reads, answers by declining.
-/
namespace MethodCache

def Value.byteCount : Value → Nat
  | .str s => s.utf8ByteSize
  | _ => 0

def byteCount : List Value → Nat
  | [] => 0
  | v :: rest => v.byteCount + byteCount rest

/-- What a native method reads from its arguments. -/
inductive Operands
  | anything
  | never
  | twice
  | whole
  | wholes
  | truth
  | double
  /-- A double, and a double or a whole number. -/
  | doubles
  | text
  | texts
  | textAndCount

def Value.isNumber : Value → Bool
  | .float _ => true
  | v => v.whole?.isSome

def Operands.fit : Operands → List Value → Bool
  | .anything, _ => true
  | .twice, x :: y :: _ => decide (x = y)
  | .whole, x :: _ => x.whole?.isSome
  | .wholes, x :: y :: _ => x.whole?.isSome && y.whole?.isSome
  | .truth, .bool _ :: _ => true
  | .double, .float _ :: _ => true
  | .doubles, .float _ :: y :: _ => y.isNumber
  | .text, .str _ :: _ => true
  | .texts, .str _ :: .str _ :: _ => true
  | .textAndCount, .str _ :: y :: _ => y.whole?.isSome
  | _, _ => false

namespace Operands

variable {x y : Value} {rest : List Value}

@[simp] theorem fit_twice : twice.fit (x :: y :: rest) = decide (x = y) := rfl

@[simp] theorem fit_whole : whole.fit (x :: rest) = x.whole?.isSome := rfl

@[simp] theorem fit_wholes :
    wholes.fit (x :: y :: rest) = (x.whole?.isSome && y.whole?.isSome) := rfl

@[simp] theorem fit_truth {b : Bool} : truth.fit (.bool b :: rest) = true := rfl

@[simp] theorem fit_double {d : Binary64} : double.fit (.float d :: rest) = true := rfl

@[simp] theorem fit_doubles {d : Binary64} :
    doubles.fit (.float d :: y :: rest) = y.isNumber := rfl

@[simp] theorem fit_text {s : String} : text.fit (.str s :: rest) = true := rfl

@[simp] theorem fit_texts {s t : String} : texts.fit (.str s :: .str t :: rest) = true := rfl

@[simp] theorem fit_textAndCount {s : String} :
    textAndCount.fit (.str s :: y :: rest) = y.whole?.isSome := rfl

end Operands

namespace Native

def operands (n : Native) : Operands :=
  match n.owner, n.slot with
  | .object, .eq | .object, .ne => .twice
  | .object, .new | .object, .init | .object, .hash | .object, .repr | .object, .str
  | .object, .format | .noneType, .bool | .noneType, .repr | .module, .repr => .anything
  | .int, .add | .int, .radd | .int, .sub | .int, .rsub | .int, .mul | .int, .rmul
  | .int, .floorDiv | .int, .rfloorDiv | .int, .mod | .int, .rmod | .int, .and | .int, .rand
  | .int, .or | .int, .ror | .int, .xor | .int, .rxor | .int, .eq | .int, .ne | .int, .lt
  | .int, .le | .int, .gt | .int, .ge => .wholes
  | .int, .hash | .int, .index | .int, .int | .int, .bool | .int, .float | .int, .repr => .whole
  | .bool, .and | .bool, .rand | .bool, .or | .bool, .ror | .bool, .xor | .bool, .rxor => .wholes
  | .bool, .repr => .truth
  | .float, .add | .float, .radd | .float, .sub | .float, .rsub | .float, .mul | .float, .rmul
  | .float, .trueDiv | .float, .rtrueDiv | .float, .eq | .float, .ne | .float, .lt | .float, .le
  | .float, .gt | .float, .ge => .doubles
  | .float, .hash | .float, .bool | .float, .int | .float, .float | .float, .repr => .double
  | .str, .add | .str, .eq | .str, .ne | .str, .lt | .str, .le | .str, .gt | .str, .ge
  | .str, .contains => .texts
  | .str, .mul | .str, .rmul => .textAndCount
  | .str, .hash | .str, .len | .str, .repr | .str, .str => .text
  | _, _ => .never

def repeatedBytes : List Value → Nat
  | .str s :: count :: _ => s.utf8ByteSize * (count.whole?.getD 0).toNat
  | _ => 0

/-- The bytes of a text written in printable ASCII between quotes. -/
def escapedBytes : List Value → Nat
  | .str s :: _ => (Text.asciiEscaped s).utf8ByteSize + 2
  | _ => 0

/-- The bytes of the text that a call repeats or escapes. -/
def bytesMade (n : Native) (args : List Value) : Nat :=
  match n.owner, n.slot with
  | .str, .mul | .str, .rmul => repeatedBytes args
  | .str, .repr => escapedBytes args
  | _, _ => 0

/-- A call that is to make a text of so many bytes: it stops for want of room when those are too
many, and answers otherwise. -/
def StopsAbove (bytes : Nat) (outcome : Except NativeFault Value) : Prop :=
  (Text.maxBytes < bytes → outcome = .error .capacityOverflow) ∧
  (bytes ≤ Text.maxBytes → ∃ v, outcome = .ok v)

theorem stopsAbove_zero {outcome : Except NativeFault Value} (h : ∃ v, outcome = .ok v) :
    StopsAbove 0 outcome :=
  ⟨fun hbytes => absurd hbytes (Nat.not_lt_zero _), fun _ => h⟩

/-! ### Arguments that do not fit -/

theorem int?_eq_none {args : List Value} (h : Operands.whole.fit args = false) :
    int? args = none := by
  cases args with
  | nil => rfl
  | cons x rest => simpa [int?, Value.whole?_eq] using h

theorem intPair?_eq_none {args : List Value} (h : Operands.wholes.fit args = false) :
    intPair? args = none := by
  match args with
  | [] => rfl
  | [_] => rfl
  | x :: y :: rest =>
    rw [Operands.fit_wholes, Value.whole?_eq, Value.whole?_eq] at h
    cases hx : x.asInt? <;> cases hy : y.asInt? <;> simp_all [intPair?]

theorem float?_eq_none {args : List Value} (h : Operands.double.fit args = false) :
    float? args = none := by
  unfold float?
  split
  · simp at h
  · rfl

theorem floatPair?_eq_none {args : List Value} (h : Operands.doubles.fit args = false) :
    floatPair? args = none := by
  unfold floatPair?
  split
  · next x y rest =>
    rw [Operands.fit_doubles] at h
    cases y with
    | int i => cases h
    | bool b => cases h
    | float y => cases h
    | _ => rfl
  · rfl

theorem text?_eq_none {args : List Value} (h : Operands.text.fit args = false) :
    text? args = none := by
  unfold text?
  split
  · simp at h
  · rfl

theorem textPair?_eq_none {args : List Value} (h : Operands.texts.fit args = false) :
    textPair? args = none := by
  unfold textPair?
  split
  · simp at h
  · rfl

theorem times_of_not_fit {args : List Value} (h : Operands.textAndCount.fit args = false) :
    Textual.times args = .ok .notImplemented := by
  unfold Textual.times
  split
  · next s count rest =>
    have hcount : count.asInt? = none := by simpa [Value.whole?_eq] using h
    rw [hcount]
  · rfl

theorem Integer.binary_of_not_fit {args : List Value} (h : Operands.wholes.fit args = false)
    (op : Int64 → Int64 → Except NativeFault (Option Int64)) :
    Integer.binary op args = .ok .notImplemented := by
  rw [Integer.binary, intPair?_eq_none h]

theorem Integer.call_of_not_fit {s : Slot} {args : List Value}
    (h : (operands ⟨.int, s⟩).fit args = false) : Integer.call s args = .ok .notImplemented := by
  cases s
  case add | sub | mul | floorDiv | mod | and | rand | or | ror | xor | rxor =>
    exact Integer.binary_of_not_fit h _
  case radd | rsub | rmul | rfloorDiv | rmod =>
    rw [Integer.call, Integer.reflected_eq]
    exact Integer.binary_of_not_fit h _
  case eq | ne | lt | le | gt | ge =>
    simp only [Integer.call, Integer.compare, intPair?_eq_none h]
    rfl
  case hash | index | int | bool | float | repr =>
    simp only [Integer.call, Integer.unary, int?_eq_none h]
    rfl
  all_goals rfl

theorem Truth.call_of_not_fit {s : Slot} {args : List Value}
    (h : (operands ⟨.bool, s⟩).fit args = false) : Truth.call s args = .ok .notImplemented := by
  have hconnective (op : Bool → Bool → Bool) {s : Slot}
      (hs : Integer.call s args = .ok .notImplemented)
      (hargs : Operands.wholes.fit args = false) :
      Truth.connective op s args = .ok .notImplemented := by
    unfold Truth.connective boolPair?
    split
    · next hpair =>
      split at hpair
      · simp [Value.whole?] at hargs
      · simp at hpair
    · exact hs
  cases s
  case and | rand | or | ror | xor | rxor =>
    exact hconnective _ (Integer.call_of_not_fit h) h
  case repr =>
    have hargs : Operands.truth.fit args = false := h
    simp only [Truth.call]
    split
    · simp at hargs
    · simp at hargs
    · rfl
  all_goals rfl

theorem Floating.call_of_not_fit [Hashing] {s : Slot} {args : List Value}
    (h : (operands ⟨.float, s⟩).fit args = false) : Floating.call s args = .notImplemented := by
  cases s
  case add | sub | mul | trueDiv =>
    simp only [Floating.call, Floating.binary, floatPair?_eq_none h]
    rfl
  case radd | rsub | rmul | rtrueDiv =>
    simp only [Floating.call, Floating.reflected, floatPair?_eq_none h]
    rfl
  case eq | ne | lt | le | gt | ge =>
    simp only [Floating.call, Floating.compare, floatPair?_eq_none h]
    rfl
  case hash | bool | int | float | repr =>
    simp only [Floating.call, Floating.unary, float?_eq_none h]
    rfl
  all_goals rfl

theorem Textual.call_of_not_fit [Hashing] {s : Slot} {args : List Value}
    (h : (operands ⟨.str, s⟩).fit args = false) : Textual.call s args = .ok .notImplemented := by
  cases s
  case mul | rmul => exact times_of_not_fit h
  case add =>
    simp only [Textual.call, Textual.joined, textPair?_eq_none h]
  case repr =>
    simp only [Textual.call, Textual.escaped, text?_eq_none h]
  case eq | ne | lt | le | gt | ge | contains =>
    simp only [Textual.call, Textual.compare, textPair?_eq_none h]
    rfl
  case hash | len | str =>
    simp only [Textual.call, Textual.unary, text?_eq_none h]
    rfl
  all_goals rfl

theorem Plain.call_of_not_fit [Hashing] {s : Slot} {args : List Value}
    (h : (operands ⟨.object, s⟩).fit args = false) : Plain.call s args = .notImplemented := by
  have hsame (answer : Bool) (hargs : Operands.twice.fit args = false) :
      Plain.ifSame answer args = .notImplemented := by
    unfold Plain.ifSame
    split
    · next x y rest =>
      have hne : x ≠ y := by simpa using hargs
      simp [Value.same, hne]
    · rfl
  cases s
  case eq => exact hsame true h
  case ne => exact hsame false h
  case new | init | hash | repr | str | format => cases h
  all_goals rfl

theorem call_of_not_fit [Hashing] {n : Native} {args : List Value} (h : n.operands.fit args = false)
    (context : ContextId) : n.call context args = .ok .notImplemented := by
  obtain ⟨owner, s⟩ := n
  cases owner with
  | object => exact congrArg Except.ok (Plain.call_of_not_fit h)
  | noneType =>
    cases s
    case bool | repr => cases h
    all_goals rfl
  | int => exact Integer.call_of_not_fit h
  | bool => exact Truth.call_of_not_fit h
  | float => exact congrArg Except.ok (Floating.call_of_not_fit h)
  | str => exact Textual.call_of_not_fit h
  | module =>
    cases s
    case repr => cases h
    all_goals rfl

/-! ### Methods of whole numbers and truth values -/

theorem Integer.exists_binary {op : Int64 → Int64 → Except NativeFault (Option Int64)}
    (hop : ∀ a b, ∃ o, op a b = .ok o) (args : List Value) :
    ∃ v, Integer.binary op args = .ok v := by
  unfold Integer.binary
  split
  · next a b _ =>
    obtain ⟨o, ho⟩ := hop a b
    exact ⟨_, by rw [ho]; rfl⟩
  · exact ⟨_, rfl⟩

theorem Integer.exists_reflected {op : Int64 → Int64 → Except NativeFault (Option Int64)}
    (hop : ∀ a b, ∃ o, op a b = .ok o) (args : List Value) :
    ∃ v, Integer.reflected op args = .ok v := by
  rw [Integer.reflected_eq]
  exact Integer.exists_binary (fun a b => hop b a) args

/-- No unchecked step of a whole-number method goes wrong. -/
theorem Integer.exists_call (s : Slot) (args : List Value) :
    ∃ v, Integer.call s args = .ok v := by
  have hchecked (op : Int64 → Int64 → Option Int64) :
      ∀ a b, ∃ o, Words.checked op a b = .ok o := fun _ _ => ⟨_, rfl⟩
  have hdiv : ∀ a b, ∃ o, Words.floorDiv? a b = .ok o :=
    fun a b => ⟨_, Words.floorDiv?_eq a b⟩
  have hmod : ∀ a b, ∃ o, Words.floorMod? a b = .ok o :=
    fun a b => ⟨_, Words.floorMod?_eq a b⟩
  cases s
  case floorDiv => exact Integer.exists_binary hdiv args
  case rfloorDiv => exact Integer.exists_reflected hdiv args
  case mod => exact Integer.exists_binary hmod args
  case rmod => exact Integer.exists_reflected hmod args
  case add | sub | mul | and | rand | or | ror | xor | rxor =>
    exact Integer.exists_binary (hchecked _) args
  case radd | rsub | rmul => exact Integer.exists_reflected (hchecked _) args
  all_goals exact ⟨_, rfl⟩

theorem Truth.exists_call (s : Slot) (args : List Value) : ∃ v, Truth.call s args = .ok v := by
  have hconnective (op : Bool → Bool → Bool) (s : Slot) :
      ∃ v, Truth.connective op s args = .ok v := by
    unfold Truth.connective
    split
    · exact ⟨_, rfl⟩
    · exact Integer.exists_call s args
  cases s
  case and | rand | or | ror | xor | rxor => exact hconnective _ _
  case repr =>
    simp only [Truth.call]
    split <;> exact ⟨_, rfl⟩
  all_goals exact ⟨_, rfl⟩

/-! ### Texts that are put together -/

theorem answerText_of_le {s : String} (h : s.utf8ByteSize ≤ Text.maxBytes) :
    answerText s = .ok (.str s) :=
  if_neg (Nat.not_lt.mpr h)

theorem answerText_of_lt {s : String} (h : Text.maxBytes < s.utf8ByteSize) :
    answerText s = .error .capacityOverflow :=
  if_pos h

/-- Texts that fit into a quarter of the address space can be joined. -/
theorem Textual.exists_joined {args : List Value} (hargs : byteCount args < 2 ^ 62) :
    ∃ v, Textual.joined args = .ok v := by
  unfold Textual.joined textPair?
  split
  · next a b hpair =>
    split at hpair
    · next a' b' rest =>
      obtain ⟨rfl, rfl⟩ : a' = a ∧ b' = b := by simpa using hpair
      have hbytes : (a' ++ b').utf8ByteSize ≤ Text.maxBytes := by
        rw [String.utf8ByteSize_append]
        simp only [byteCount, Value.byteCount] at hargs
        have hmax : Text.maxBytes = 2 ^ 63 - 1 := rfl
        omega
      exact ⟨_, answerText_of_le hbytes⟩
    · simp at hpair
  · exact ⟨_, rfl⟩

theorem Textual.escaped_stops (args : List Value) :
    StopsAbove (escapedBytes args) (Textual.escaped args) := by
  cases args with
  | nil => exact stopsAbove_zero ⟨_, rfl⟩
  | cons x rest =>
    cases x with
    | str s =>
      have hbytes : escapedBytes (.str s :: rest) =
          (s!"'{Text.asciiEscaped s}'").utf8ByteSize := by
        change _ = ("'" ++ Text.asciiEscaped s ++ "'").utf8ByteSize
        rw [String.utf8ByteSize_append, String.utf8ByteSize_append,
          show "'".utf8ByteSize = 1 from rfl, escapedBytes]
        omega
      rw [hbytes]
      exact ⟨answerText_of_lt, fun h => ⟨_, answerText_of_le h⟩⟩
    | _ => exact stopsAbove_zero ⟨_, rfl⟩

theorem Textual.times_text (s : String) (count : Value) (rest : List Value) :
    StopsAbove (s.utf8ByteSize * (count.whole?.getD 0).toNat)
      (Textual.times (.str s :: count :: rest)) := by
  simp only [Textual.times, Value.whole?_eq]
  cases count.asInt? with
  | none => exact stopsAbove_zero ⟨_, rfl⟩
  | some n =>
    simp only [Option.map_some, Option.getD_some, Text.repeated]
    constructor
    · intro h
      rw [if_pos h]
      rfl
    · intro h
      rw [if_neg (Nat.not_lt.mpr h)]
      split <;> exact ⟨_, rfl⟩

theorem Textual.times_stops (args : List Value) :
    StopsAbove (repeatedBytes args) (Textual.times args) := by
  cases args with
  | nil => exact stopsAbove_zero ⟨_, rfl⟩
  | cons x rest =>
    cases x with
    | str s =>
      cases rest with
      | nil => exact stopsAbove_zero ⟨_, rfl⟩
      | cons count rest => exact Textual.times_text s count rest
    | _ => exact stopsAbove_zero ⟨_, rfl⟩

/-- The methods of texts stop exactly when the text they repeat or escape gets too long. -/
theorem Textual.call_stops [Hashing] (s : Slot) {args : List Value}
    (hargs : byteCount args < 2 ^ 62) :
    StopsAbove (bytesMade ⟨.str, s⟩ args) (Textual.call s args) := by
  cases s
  case mul | rmul => exact Textual.times_stops args
  case repr => exact Textual.escaped_stops args
  case add => exact stopsAbove_zero (Textual.exists_joined hargs)
  all_goals exact stopsAbove_zero ⟨_, rfl⟩

theorem contextText_byteSize_le {context : ContextId} (h : context < 2 ^ 32) :
    context.text.utf8ByteSize ≤ 44 := by
  have hlen (cs : List Char) : String.utf8Len cs ≤ 4 * cs.length := by
    induction cs with
    | nil => simp
    | cons c cs ih =>
      have hc := Char.utf8Size_le_four c
      simp only [String.utf8Len_cons, List.length_cons]
      omega
  have hdigits : (Nat.toDigits 10 context).length ≤ 10 :=
    (Nat.length_toDigits_le_iff (by decide) (by decide)).mpr (Nat.lt_trans h (by decide))
  change ("ctx#" ++ Nat.repr context).utf8ByteSize ≤ 44
  rw [String.utf8ByteSize_append, show "ctx#".utf8ByteSize = 4 from rfl,
    Nat.repr_eq_ofList_toDigits, String.utf8ByteSize_ofList]
  have hbytes := hlen (Nat.toDigits 10 context)
  omega

theorem Plain.exists_callModule (s : Slot) {context : ContextId} (hcontext : context < 2 ^ 32)
    {args : List Value} (hargs : byteCount args < 2 ^ 62) :
    ∃ v, Plain.callModule s context args = .ok v := by
  have hname : ((text? args).getD "?").utf8ByteSize ≤ 2 ^ 62 := by
    unfold text?
    split
    · simp only [byteCount, Value.byteCount] at hargs
      simp only [Option.getD_some]
      omega
    · decide
  have hcontextText := contextText_byteSize_le hcontext
  cases s
  case repr =>
    refine ⟨_, answerText_of_le ?_⟩
    change ("<module '" ++ (text? args).getD "?" ++ "' in " ++ context.text ++ ">").utf8ByteSize ≤ _
    simp only [String.utf8ByteSize_append]
    have hmax : Text.maxBytes = 2 ^ 63 - 1 := rfl
    have hfixed : "<module '".utf8ByteSize = 9 ∧ "' in ".utf8ByteSize = 5 ∧
        ">".utf8ByteSize = 1 := by decide
    omega
  all_goals exact ⟨_, rfl⟩

/-- How a call ends, given texts that take less than a quarter of the address space. It stops
exactly where the text to be repeated or escaped gets too long, and then with that fault; it
answers everywhere else, and it declines the arguments that the method cannot read. Too long is
longer than any text may be; that there is room for every shorter one is taken for granted. -/
theorem call_ends [Hashing] (n : Native) {context : ContextId} (hcontext : context < 2 ^ 32)
    {args : List Value} (hargs : byteCount args < 2 ^ 62) :
    (Text.maxBytes < n.bytesMade args → n.call context args = .error .capacityOverflow) ∧
    (n.bytesMade args ≤ Text.maxBytes → ∃ v, n.call context args = .ok v) ∧
    (n.operands.fit args = false → n.call context args = .ok .notImplemented) := by
  have hends : StopsAbove (n.bytesMade args) (n.call context args) := by
    obtain ⟨owner, s⟩ := n
    cases owner with
    | str => exact Textual.call_stops s hargs
    | int => exact stopsAbove_zero (Integer.exists_call s args)
    | bool => exact stopsAbove_zero (Truth.exists_call s args)
    | module => exact stopsAbove_zero (Plain.exists_callModule s hcontext hargs)
    | object | noneType | float => exact stopsAbove_zero ⟨_, rfl⟩
  exact ⟨hends.1, hends.2, fun h => call_of_not_fit h context⟩

/-- Two bytes that are to stand in a row two to the sixty-two times are one byte too many. -/
theorem long_repetition_stops :
    (1 : ContextId) < 2 ^ 32 ∧ byteCount [.str "ab", .int 4611686018427387904] < 2 ^ 62 ∧
    ∀ [Hashing],
      call ⟨.str, .mul⟩ 1 [.str "ab", .int 4611686018427387904] = .error .capacityOverflow := by
  have hcontext : (1 : ContextId) < 2 ^ 32 := by decide
  have hargs : byteCount [.str "ab", .int 4611686018427387904] < 2 ^ 62 := by decide
  exact ⟨hcontext, hargs, (call_ends ⟨.str, .mul⟩ hcontext hargs).1 (by decide)⟩

/-- Not every method of the catalogue answers every call. -/
theorem not_every_call_answers :
    ¬ ∃ _ : Hashing, ∀ n ∈ catalogue, ∀ (context : ContextId) (args : List Value),
      context < 2 ^ 32 → byteCount args < 2 ^ 62 → ∃ v, n.call context args = .ok v := by
  rintro ⟨_, hall⟩
  obtain ⟨v, hv⟩ := hall ⟨.str, .mul⟩ (by decide) 1 [.str "ab", .int 4611686018427387904]
    (by decide) (by decide)
  have hstops : call ⟨.str, .mul⟩ 1 [.str "ab", .int 4611686018427387904] =
      .error .capacityOverflow :=
    (Textual.times_stops [.str "ab", .int 4611686018427387904]).1 (by decide)
  rw [hstops] at hv
  cases hv

end Native

end MethodCache
