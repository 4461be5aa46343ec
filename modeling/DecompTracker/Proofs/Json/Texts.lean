import DecompTracker.Json.Printer
import DecompTracker.Json.Reader
import DecompTracker.Proofs.Json.Literal

/-! Texts of JSON values. The compact and the indented text of a value differ in blanks only, so they
have the same tokens, and reading these tokens gives back the value. -/
namespace DecompTracker.Json

/-- A value that writing keeps: its numbers are machine words, and its strings and member names are
texts. -/
inductive Plain : Json → Prop where
  | null : Plain .null
  | bool (b : Bool) : Plain (.bool b)
  | nat {n : Nat} (h : n ≤ Text.maxWord) : Plain (.nat n)
  | text (s : String) : Plain (.ofText s)
  | array {items : List Json} (h : ∀ j ∈ items, Plain j) : Plain (.array items)
  | members {members : List (String × Json)} (h : ∀ m ∈ members, Plain m.2) :
    Plain (.ofMembers members)

/-! Tokens -/

mutual

/-- The tokens of a value in front of those after it. -/
def tokensBefore (after : List Token) : Json → List Token
  | .array [] => .openArray :: .closeArray :: after
  | .array (j :: js) => .openArray :: tokensBefore (itemTokensBefore after js) j
  | .object [] => .openObject :: .closeObject :: after
  | .object ((name, j) :: ms) =>
    .openObject :: .string name :: .colon :: tokensBefore (memberTokensBefore after ms) j
  | .string s => .string s :: after
  | j => .atom j :: after

def itemTokensBefore (after : List Token) : List Json → List Token
  | [] => .closeArray :: after
  | j :: js => .comma :: tokensBefore (itemTokensBefore after js) j

def memberTokensBefore (after : List Token) : List (JsonString × Json) → List Token
  | [] => .closeObject :: after
  | (name, j) :: ms =>
    .comma :: .string name :: .colon :: tokensBefore (memberTokensBefore after ms) j

end

/-- A text is made of tokens, with blanks before each of them and at the end. -/
inductive HasTokens : List Token → List Char → Prop where
  | nil : HasTokens [] []
  | blank {c : Char} (hc : isSpace c = true) {tokens : List Token} {cs : List Char}
    (h : HasTokens tokens cs) : HasTokens tokens (c :: cs)
  | token {c : Char} (hc : isSpace c = false) {t : Token} {cs rest : List Char}
    (ht : token? (c :: cs) = some (t, rest)) (hshort : rest.length ≤ cs.length)
    {tokens : List Token} (h : HasTokens tokens rest) : HasTokens (t :: tokens) (c :: cs)

variable {tokens : List Token} {cs : List Char}

theorem HasTokens.tokensWithin_eq (h : HasTokens tokens cs) {fuel : Nat} (hfuel : cs.length ≤ fuel) :
    tokensWithin fuel cs = some tokens := by
  -- blanks cost fuel as tokens do, and neither costs more than the characters it takes off
  induction h generalizing fuel with
  | nil => simp [tokensWithin]
  | blank hc _ ih =>
    cases fuel with
    | zero => simp at hfuel
    | succ fuel => simp [tokensWithin, hc, ih (Nat.le_of_succ_le_succ hfuel)]
  | token hc ht hshort _ ih =>
    cases fuel with
    | zero => simp at hfuel
    | succ fuel =>
      have hle := Nat.le_trans hshort (Nat.le_of_succ_le_succ hfuel)
      simp [tokensWithin, hc, ht, ih hle]

theorem HasTokens.tokens?_eq (h : HasTokens tokens cs) : tokens? cs = some tokens :=
  h.tokensWithin_eq (Nat.le_refl _)

theorem HasTokens.blanks (h : HasTokens tokens cs) {blanks : List Char}
    (hblanks : ∀ c ∈ blanks, isSpace c = true) : HasTokens tokens (blanks ++ cs) := by
  induction blanks with
  | nil => exact h
  | cons c blanks ih =>
    rw [List.forall_mem_cons] at hblanks
    exact .blank hblanks.1 (ih hblanks.2)

theorem HasTokens.space (h : HasTokens tokens cs) : HasTokens tokens (' ' :: cs) := .blank rfl h

theorem HasTokens.newline (h : HasTokens tokens cs) (depth : Nat) :
    HasTokens tokens (newline depth ++ cs) := by
  apply h.blanks
  intro c hc
  rcases List.mem_cons.mp hc with rfl | hc
  · rfl
  · rw [List.eq_of_mem_replicate hc]
    rfl

theorem HasTokens.openArray (h : HasTokens tokens cs) : HasTokens (.openArray :: tokens) ('[' :: cs) :=
  .token rfl rfl (Nat.le_refl _) h

theorem HasTokens.closeArray (h : HasTokens tokens cs) :
    HasTokens (.closeArray :: tokens) (']' :: cs) :=
  .token rfl rfl (Nat.le_refl _) h

theorem HasTokens.openObject (h : HasTokens tokens cs) :
    HasTokens (.openObject :: tokens) ('\x7b' :: cs) :=
  .token rfl rfl (Nat.le_refl _) h

theorem HasTokens.closeObject (h : HasTokens tokens cs) :
    HasTokens (.closeObject :: tokens) ('\x7d' :: cs) :=
  .token rfl rfl (Nat.le_refl _) h

theorem HasTokens.comma (h : HasTokens tokens cs) : HasTokens (.comma :: tokens) (',' :: cs) :=
  .token rfl rfl (Nat.le_refl _) h

theorem HasTokens.colon (h : HasTokens tokens cs) : HasTokens (.colon :: tokens) (':' :: cs) :=
  .token rfl rfl (Nat.le_refl _) h

theorem HasTokens.literal (h : HasTokens tokens cs) (s : String) :
    HasTokens (.string (.text s) :: tokens) (literal (.text s) ++ cs) := by
  have ht : token? ('"' :: (escape s.toList ++ ['"'] ++ cs)) = some (.string (.text s), cs) := by
    rw [List.append_assoc]
    simp [token?, literal?_escape, stringOfLiteral_escape]
  have hshort : cs.length ≤ (escape s.toList ++ ['"'] ++ cs).length := by
    rw [List.length_append]
    exact Nat.le_add_left _ _
  exact .token rfl ht hshort h

theorem ne_of_isDigit {c d : Char} (hd : d.isDigit = true) (hc : c.isDigit = false) : d ≠ c := by
  intro he
  rw [he, hc] at hd
  simp at hd

/-- No token but a number starts with a digit. -/
theorem token?_of_isDigit {d : Char} (hd : d.isDigit = true) (cs : List Char) :
    token? (d :: cs) = (number? (d :: cs)).map fun p => (.atom p.1, p.2) := by
  have hpunctuation : punctuation? d = none := by
    unfold punctuation?
    split <;> first | rfl | exact absurd rfl (ne_of_isDigit hd rfl)
  rw [token?]
  · rw [hpunctuation]
  · exact fun _ he _ => ne_of_isDigit hd rfl he
  · exact fun _ he _ => ne_of_isDigit hd rfl he
  · exact fun _ he _ => ne_of_isDigit hd rfl he
  · exact ne_of_isDigit hd rfl

theorem isSpace_of_isDigit {d : Char} (hd : d.isDigit = true) : isSpace d = false := by
  have hspace : d ≠ ' ' := ne_of_isDigit hd rfl
  have htab : d ≠ '\t' := ne_of_isDigit hd rfl
  have hfeed : d ≠ '\n' := ne_of_isDigit hd rfl
  have hreturn : d ≠ '\r' := ne_of_isDigit hd rfl
  simp [isSpace, hspace, htab, hfeed, hreturn]

theorem HasTokens.decimal (h : HasTokens tokens cs) {n : Nat} (hn : n ≤ Text.maxWord)
    (hend : EndsNumber cs) : HasTokens (.atom (.nat n) :: tokens) (decimal n ++ cs) := by
  have hnumber := number?_decimal hn hend
  cases hdigits : Json.decimal n with
  | nil => exact absurd hdigits Nat.toDigits_ne_nil
  | cons d ds =>
    have hmem : d ∈ Json.decimal n := hdigits ▸ List.mem_cons_self
    have hd : d.isDigit = true := isDigit_of_mem_decimal hmem
    rw [hdigits, List.cons_append] at hnumber
    have ht : token? (d :: (ds ++ cs)) = some (.atom (.nat n), cs) := by
      rw [token?_of_isDigit hd, hnumber, Option.map_some]
    exact .token (isSpace_of_isDigit hd) ht (by simp) h

theorem HasTokens.null (h : HasTokens tokens cs) :
    HasTokens (.atom .null :: tokens) (atom .null ++ cs) :=
  .token rfl rfl (Nat.le_add_right cs.length 3) h

theorem HasTokens.bool (h : HasTokens tokens cs) (b : Bool) :
    HasTokens (.atom (.bool b) :: tokens) (atom (.bool b) ++ cs) := by
  cases b with
  | false => exact .token rfl rfl (Nat.le_add_right cs.length 4) h
  | true => exact .token rfl rfl (Nat.le_add_right cs.length 3) h

/-! Writing -/

/-- A writer puts a text of the value's tokens in front of what comes after. -/
def Writes (write : List Char → List Char) (j : Json) : Prop :=
  ∀ {tokens cs}, HasTokens tokens cs → EndsNumber cs →
    HasTokens (tokensBefore tokens j) (write cs)

/-- The members of an object with texts for names. -/
def named (members : List (String × Json)) : List (JsonString × Json) :=
  members.map fun m => (.text m.1, m.2)

theorem endsNumber_nil : EndsNumber [] := by simp [EndsNumber]

theorem endsNumber_cons {c : Char}
    (hc : c.isDigit = false ∧ c ≠ '.' ∧ c ≠ 'e' ∧ c ≠ 'E') (cs : List Char) :
    EndsNumber (c :: cs) := by
  intro d hd
  rw [List.head?_cons, Option.mem_some_iff] at hd
  exact hd ▸ hc

theorem writes_compactItems {items : List Json} (hitems : ∀ j ∈ items, Writes (compactBefore · j) j)
    (h : HasTokens tokens cs) :
    HasTokens (itemTokensBefore tokens items) (compactItemsBefore cs items) ∧
      EndsNumber (compactItemsBefore cs items) := by
  induction items with
  | nil => exact ⟨h.closeArray, endsNumber_cons (by decide) _⟩
  | cons j js ih =>
    rw [List.forall_mem_cons] at hitems
    obtain ⟨hrest, hend⟩ := ih hitems.2
    exact ⟨(hitems.1 hrest hend).comma, endsNumber_cons (by decide) _⟩

theorem writes_compactMembers {members : List (String × Json)}
    (hmembers : ∀ m ∈ members, Writes (compactBefore · m.2) m.2) (h : HasTokens tokens cs) :
    HasTokens (memberTokensBefore tokens (named members)) (compactMembersBefore cs (named members)) ∧
      EndsNumber (compactMembersBefore cs (named members)) := by
  induction members with
  | nil => exact ⟨h.closeObject, endsNumber_cons (by decide) _⟩
  | cons m ms ih =>
    rw [List.forall_mem_cons] at hmembers
    obtain ⟨hrest, hend⟩ := ih hmembers.2
    exact ⟨((hmembers.1 hrest hend).colon.literal m.1).comma, endsNumber_cons (by decide) _⟩

theorem Plain.writes_compactBefore {j : Json} (hj : Plain j) : Writes (compactBefore · j) j := by
  induction hj with
  | null => exact fun h _ => h.null
  | bool b => exact fun h _ => h.bool b
  | nat hn => exact fun h hend => h.decimal hn hend
  | text s => exact fun h _ => h.literal s
  | @array items _ ih =>
    intro tokens cs h hend
    cases items with
    | nil => exact h.closeArray.openArray
    | cons j js =>
      rw [List.forall_mem_cons] at ih
      obtain ⟨hrest, hend⟩ := writes_compactItems ih.2 h
      exact (ih.1 hrest hend).openArray
  | @members members _ ih =>
    intro tokens cs h hend
    cases members with
    | nil => exact h.closeObject.openObject
    | cons m ms =>
      rw [List.forall_mem_cons] at ih
      obtain ⟨hrest, hend⟩ := writes_compactMembers ih.2 h
      exact ((ih.1 hrest hend).colon.literal m.1).openObject

theorem endsNumber_newline (depth : Nat) (cs : List Char) : EndsNumber (newline depth ++ cs) :=
  endsNumber_cons (by decide) _

theorem writes_prettyItems {items : List Json} {depth : Nat}
    (hitems : ∀ j ∈ items, Writes (prettyBefore · (depth + 1) j) j) (h : HasTokens tokens cs) :
    HasTokens (itemTokensBefore tokens items) (prettyItemsBefore cs depth items) ∧
      EndsNumber (prettyItemsBefore cs depth items) := by
  induction items with
  | nil => exact ⟨h.closeArray.newline depth, endsNumber_newline depth _⟩
  | cons j js ih =>
    rw [List.forall_mem_cons] at hitems
    obtain ⟨hrest, hend⟩ := ih hitems.2
    exact ⟨((hitems.1 hrest hend).newline (depth + 1)).comma, endsNumber_cons (by decide) _⟩

theorem writes_prettyMembers {members : List (String × Json)} {depth : Nat}
    (hmembers : ∀ m ∈ members, Writes (prettyBefore · (depth + 1) m.2) m.2)
    (h : HasTokens tokens cs) :
    HasTokens (memberTokensBefore tokens (named members))
        (prettyMembersBefore cs depth (named members)) ∧
      EndsNumber (prettyMembersBefore cs depth (named members)) := by
  induction members with
  | nil => exact ⟨h.closeObject.newline depth, endsNumber_newline depth _⟩
  | cons m ms ih =>
    rw [List.forall_mem_cons] at hmembers
    obtain ⟨hrest, hend⟩ := ih hmembers.2
    have hvalue := (hmembers.1 hrest hend).space.colon
    refine ⟨?_, endsNumber_cons (by decide) _⟩
    simp only [named, List.map_cons, memberTokensBefore, prettyMembersBefore, List.append_assoc]
    exact ((hvalue.literal m.1).newline (depth + 1)).comma

theorem Plain.writes_prettyBefore {j : Json} (hj : Plain j) (depth : Nat) :
    Writes (prettyBefore · depth j) j := by
  induction hj generalizing depth with
  | null => exact fun h _ => h.null
  | bool b => exact fun h _ => h.bool b
  | nat hn => exact fun h hend => h.decimal hn hend
  | text s => exact fun h _ => h.literal s
  | @array items _ ih =>
    intro tokens cs h hend
    cases items with
    | nil => exact h.closeArray.openArray
    | cons j js =>
      rw [List.forall_mem_cons] at ih
      obtain ⟨hrest, hend⟩ := writes_prettyItems (fun i hi => ih.2 i hi (depth + 1)) h
      exact ((ih.1 (depth + 1) hrest hend).newline (depth + 1)).openArray
  | @members members _ ih =>
    intro tokens cs h hend
    cases members with
    | nil => exact h.closeObject.openObject
    | cons m ms =>
      rw [List.forall_mem_cons] at ih
      obtain ⟨hrest, hend⟩ := writes_prettyMembers (fun i hi => ih.2 i hi (depth + 1)) h
      have hvalue := (ih.1 (depth + 1) hrest hend).space.colon
      simp only [ofMembers, List.map_cons, tokensBefore, prettyBefore, List.append_assoc]
      exact ((hvalue.literal m.1).newline (depth + 1)).openObject

/-! Reading -/

namespace Reading

/-- A value as the first item is read like any other item. -/
theorem run_firstItem (outer : List Frame) (j : Json) :
    run (.firstItem outer) (tokensBefore tokens j) =
      run (.value (.array [] :: outer)) (tokensBefore tokens j) := by
  match j with
  | .null | .bool _ | .nat _ | .number _ | .string _ | .array [] | .array (_ :: _) | .object []
  | .object (_ :: _) => rfl

/-- Reading a value ends where its tokens end. -/
def ReadsValue (j : Json) : Prop :=
  ∀ outer tokens, run (.value outer) (tokensBefore tokens j) = run (.complete j outer) tokens

theorem run_items {items : List Json} (hitems : ∀ j ∈ items, ReadsValue j) (j : Json)
    (before : List Json) (outer : List Frame) :
    run (.complete j (.array before :: outer)) (itemTokensBefore tokens items) =
      run (.complete (.array ((j :: before).reverse ++ items)) outer) tokens := by
  induction items generalizing j before with
  | nil =>
    rw [itemTokensBefore, List.append_nil]
    rfl
  | cons i items ih =>
    rw [List.forall_mem_cons] at hitems
    have hcomma : run (.complete j (.array before :: outer))
        (itemTokensBefore tokens (i :: items)) =
        run (.value (.array (j :: before) :: outer))
          (tokensBefore (itemTokensBefore tokens items) i) := rfl
    -- the frame holds its items latest first, so the order is turned back at the end
    rw [hcomma, hitems.1, ih hitems.2]
    simp

theorem run_members {members : List (String × Json)} (hmembers : ∀ m ∈ members, ReadsValue m.2)
    (j : Json) (name : JsonString) (before : List (JsonString × Json)) (outer : List Frame) :
    run (.complete j (.object before name :: outer)) (memberTokensBefore tokens (named members)) =
      run (.complete (.object (((name, j) :: before).reverse ++ named members)) outer) tokens := by
  induction members generalizing j name before with
  | nil =>
    rw [named, List.map_nil, memberTokensBefore, List.append_nil]
    rfl
  | cons m members ih =>
    rw [List.forall_mem_cons] at hmembers
    have hcomma : run (.complete j (.object before name :: outer))
        (memberTokensBefore tokens (named (m :: members))) =
        run (.value (.object ((name, j) :: before) (.text m.1) :: outer))
          (tokensBefore (memberTokensBefore tokens (named members)) m.2) := rfl
    rw [hcomma, hmembers.1, ih hmembers.2]
    simp [named]

theorem readsValue_of_plain {j : Json} (hj : Plain j) : ReadsValue j := by
  induction hj with
  | null => exact fun _ _ => rfl
  | bool => exact fun _ _ => rfl
  | nat => exact fun _ _ => rfl
  | text => exact fun _ _ => rfl
  | @array items _ ih =>
    intro outer tokens
    cases items with
    | nil => rfl
    | cons j js =>
      rw [List.forall_mem_cons] at ih
      have hopen : run (.value outer) (tokensBefore tokens (.array (j :: js))) =
          run (.firstItem outer) (tokensBefore (itemTokensBefore tokens js) j) := rfl
      rw [hopen, run_firstItem, ih.1, run_items ih.2]
      simp
  | @members members _ ih =>
    intro outer tokens
    cases members with
    | nil => rfl
    | cons m ms =>
      rw [List.forall_mem_cons] at ih
      have hopen : run (.value outer) (tokensBefore tokens (.ofMembers (m :: ms))) =
          run (.value (.object [] (.text m.1) :: outer))
            (tokensBefore (memberTokensBefore tokens (named ms)) m.2) := rfl
      rw [hopen, ih.1, run_members ih.2]
      simp [named, ofMembers]

end Reading

/-- The texts of a value: without any blank, and indented. -/
def IsTextOf (text : String) (j : Json) : Prop := text = j.compact ∨ text = j.pretty

/-- A value is read back from either of its texts. -/
theorem Plain.parse?_eq {j : Json} (hj : Plain j) {text : String} (h : IsTextOf text j) :
    parse? text = some j := by
  have htokens : HasTokens (tokensBefore [] j) text.toList := by
    rcases h with rfl | rfl
    · rw [compact, String.toList_ofList]
      exact hj.writes_compactBefore .nil endsNumber_nil
    · rw [pretty, String.toList_ofList]
      exact hj.writes_prettyBefore 0 .nil endsNumber_nil
  rw [parse?, htokens.tokens?_eq, Option.bind_some, ofTokens?, Reading.readsValue_of_plain hj]
  rfl

end DecompTracker.Json
