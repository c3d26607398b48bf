import HTWGArchive.Simulator.Entries
import HTWGArchive.Simulator.TaskTable

namespace Simulator

open TokenRuns

-- A row as the task table shows it.
structure TableRow where
  name : String
  tPh : ℕ
  tPer : ℕ
  tE : ℕ
  tD : ℕ
  resources : List (String × ℕ × ℕ)
  deriving DecidableEq, Repr

def fields (line : List Char) : List Token :=
  runs isSpace line

def numeral (field : Token) : Option ℕ :=
  if field ≠ [] ∧ field.all Char.isDigit then some (decimal field) else none

def readTriples : List Token → Option (List (String × ℕ × ℕ))
  | [] => some []
  | name :: tFrom :: tFor :: rest =>
    (numeral tFrom).bind (fun a => (numeral tFor).bind (fun b =>
      (readTriples rest).map (fun triples => (String.ofList name, a, b) :: triples)))
  | _ => none

def readResources : List Token → Option (List (String × ℕ × ℕ))
  | [] => some []
  | numResc :: rest =>
    (numeral numResc).bind (fun n =>
      (readTriples rest).bind (fun triples =>
        if triples.length = n then some triples else none))

-- A name, four non-negative numbers, and optionally a count followed by that many triples.
def readRow : List Token → Option TableRow
  | name :: tPh :: tPer :: tE :: tD :: rest =>
    (numeral tPh).bind (fun a => (numeral tPer).bind (fun b => (numeral tE).bind (fun c =>
      (numeral tD).bind (fun d =>
        (readResources rest).map (fun triples => ⟨String.ofList name, a, b, c, d, triples⟩)))))
  | _ => none

def TableRow.agrees (row : TableRow) (task : TaskRow) : Prop :=
  task.name = row.name ∧ task.tPh.toNat = row.tPh ∧ task.tPer.toNat = row.tPer ∧
    task.tE.toNat = row.tE ∧ task.tD.toNat = row.tD ∧
      task.resources.map (fun e => (e.1, e.2.1.toNat, e.2.2.toNat)) = row.resources

-- Numbers that fit; `get_number` takes `2 ^ 32 - 1` for a failure.
structure TableRow.InRange (row : TableRow) : Prop where
  tPh : row.tPh < 2 ^ 32
  tPer : row.tPer < 2 ^ 32
  tE : row.tE < 2 ^ 32
  tD : row.tD < 2 ^ 32
  count : row.resources.length < 2 ^ 31
  triples : ∀ e ∈ row.resources, e.2.1 < 2 ^ 32 - 1 ∧ e.2.2 < 2 ^ 32

-- What is left of a line behind leading `Start` and `Stop` settings; `waiting` for their number.
def rowTokens : Bool → List Token → List Token
  | _, [] => []
  | true, token :: rest => rowTokens (getNumber token = -1) rest
  | false, token :: rest =>
    if token = "Start".toList ∨ token = "Stop".toList then rowTokens true rest else token :: rest

def Numbers : ℕ → List Token → Prop
  | 0, _ => True
  | _ + 1, [] => False
  | n + 1, token :: rest => getNumber token ≠ -1 ∧ Numbers n rest

def Accepted (tokens : List Token) : Prop :=
  ∃ name rest, rowTokens false tokens = name :: rest ∧ Numbers 4 rest

def WellFormedLine (line : List Char) : Prop :=
  ∃ row, readRow (fields line) = some row ∧ row.name ≠ "Start" ∧ row.name ≠ "Stop" ∧ row.InRange

section Numbers

theorem takeWhile_digits {ds : List Char} (hds : ∀ c ∈ ds, c.isDigit = true) {rest : List Char}
    (hrest : ∀ c ∈ rest.head?, c.isDigit = false) :
    (ds ++ rest).takeWhile Char.isDigit = ds := by
  induction ds with
  | nil =>
    cases rest with
    | nil => rfl
    | cons c rest => simp [hrest c rfl]
  | cons c ds ih =>
    rw [List.cons_append, List.takeWhile_cons, if_pos (hds c List.mem_cons_self),
      ih (fun x hx => hds x (List.mem_cons_of_mem c hx))]

theorem numeral_eq_some {field : Token} {n : ℕ} (h : numeral field = some n) :
    field ≠ [] ∧ (∀ c ∈ field, c.isDigit = true) ∧ decimal field = n := by
  rw [numeral] at h
  split at h
  · rename_i hdigits
    exact ⟨hdigits.1, List.all_eq_true.mp hdigits.2, Option.some_inj.mp h⟩
  · cases h

theorem not_space_of_digit {c : Char} (h : c.isDigit = true) :
    isSpace c = false ∧ c ≠ '-' ∧ c ≠ '+' := by
  refine ⟨?_, ?_, ?_⟩
  · rw [Bool.eq_false_iff]
    intro hspace
    have hmem : c = '\n' ∨ c = '\x0c' ∨ c = '\x0b' ∨ c = '\t' ∨ c = '\r' ∨ c = ' ' := by
      simpa [isSpace, delimiter] using hspace
    rcases hmem with rfl | rfl | rfl | rfl | rfl | rfl <;> cases h
  · rintro rfl
    cases h
  · rintro rfl
    cases h

theorem strtol_numeral {field : Token} {n : ℕ} (h : numeral field = some n) {rest : List Char}
    (hrest : ∀ c ∈ rest.head?, c.isDigit = false) : strtol (field ++ rest) = some (n : ℤ) := by
  obtain ⟨hne, hdigits, hvalue⟩ := numeral_eq_some h
  cases field with
  | nil => exact absurd rfl hne
  | cons c cs =>
    obtain ⟨hspace, hminus, hplus⟩ := not_space_of_digit (hdigits c List.mem_cons_self)
    have htake := takeWhile_digits hdigits hrest
    rw [strtol, List.cons_append, List.dropWhile_cons, if_neg (by rw [hspace]; decide)]
    dsimp only
    rw [if_neg hminus, if_neg hplus, strtolDigits, ← List.cons_append, htake, if_neg hne, hvalue]
    rfl

-- A line feed behind a number changes nothing.
theorem getNumber_numeral {field token : Token} {n : ℕ} (h : numeral field = some n)
    (htoken : token = field ∨ token = field ++ ['\n']) :
    getNumber token = if 2 ^ 63 ≤ n then -1 else Int32.ofNat n := by
  have hvalue : strtol token = some (n : ℤ) := by
    rcases htoken with rfl | rfl
    · have hsame : strtol (token ++ []) = some (n : ℤ) := strtol_numeral h (by simp)
      rw [List.append_nil] at hsame
      exact hsame
    · exact strtol_numeral h (by simp)
  rw [getNumber, hvalue]
  dsimp only
  by_cases hn : 2 ^ 63 ≤ n
  · rw [if_pos hn, if_pos (by simp; omega)]
  · rw [if_neg hn, if_neg (by simp; omega)]
    rfl

theorem getNumber_newline : getNumber ['\n'] = -1 := by
  decide

end Numbers

section Settings

structure SameTable (p p' : Parser) : Prop where
  rows : p'.rows = p.rows
  resources : p'.resources = p.resources
  rescListTask : p'.rescListTask = p.rescListTask

def LineParser.waiting (l : LineParser) : Prop :=
  l = { LineParser.fresh with lineState := .start } ∨
    l = { LineParser.fresh with lineState := .stop }

theorem parseToken_setting {token : Token}
    (h : token = "Start".toList ∨ token = "Stop".toList) (p : Parser) :
    ∃ l, l.waiting ∧ parseToken (p, LineParser.fresh) token = some (p, l) := by
  rcases h with rfl | rfl
  · exact ⟨_, Or.inl rfl, rfl⟩
  · exact ⟨_, Or.inr rfl, rfl⟩

theorem parseToken_waiting {l : LineParser} (h : l.waiting) {token : Token}
    (hnumber : getNumber token = -1) (p : Parser) : parseToken (p, l) token = some (p, l) := by
  rcases h with rfl | rfl <;> simp [parseToken, startLine, hnumber]

theorem parseToken_number {l : LineParser} (h : l.waiting) {token : Token}
    (hnumber : getNumber token ≠ -1) (p : Parser) :
    ∃ p', SameTable p p' ∧ parseToken (p, l) token = some (p', LineParser.fresh) := by
  rcases h with rfl | rfl
  · refine ⟨{ p with tStart := (getNumber token).toUInt32 }, ⟨rfl, rfl, rfl⟩, ?_⟩
    simp [parseToken, startLine, hnumber]
    rfl
  · refine ⟨{ p with tStop := getNumber token }, ⟨rfl, rfl, rfl⟩, ?_⟩
    simp [parseToken, startLine, hnumber]
    rfl

-- The line parser that `rowTokens` is in: fresh, or waiting for the number of a setting.
def InSettings (waiting : Bool) (l : LineParser) : Prop :=
  if waiting then l.waiting else l = LineParser.fresh

theorem foldlM_settings (tokens : List Token) (waiting : Bool) {l : LineParser}
    (h : InSettings waiting l) (p : Parser) :
    ∃ p', SameTable p p' ∧
      (rowTokens waiting tokens = [] →
        ∃ l', tokens.foldlM parseToken (p, l) = some (p', l') ∧ l'.taskState = .idle) ∧
      (rowTokens waiting tokens ≠ [] →
        tokens.foldlM parseToken (p, l) =
          (rowTokens waiting tokens).foldlM parseToken (p', LineParser.fresh)) := by
  induction tokens generalizing waiting l p with
  | nil =>
    refine ⟨p, ⟨rfl, rfl, rfl⟩, fun _ => ⟨l, rfl, ?_⟩, ?_⟩
    · cases waiting with
      | true => rcases h with rfl | rfl <;> rfl
      | false =>
        obtain rfl := h
        rfl
    · cases waiting <;> exact fun hne => absurd rfl hne
  | cons token tokens ih =>
    cases waiting with
    | true =>
      rw [rowTokens]
      by_cases hnumber : getNumber token = -1
      · obtain ⟨p', hsame, hrest⟩ := ih true h p
        refine ⟨p', hsame, ?_⟩
        simp only [hnumber, decide_true, List.foldlM_cons, parseToken_waiting h hnumber p]
        exact hrest
      · obtain ⟨p₁, hsame₁, htoken⟩ := parseToken_number h hnumber p
        obtain ⟨p', hsame, hrest⟩ := ih false (l := LineParser.fresh) rfl p₁
        refine ⟨p', ⟨hsame.rows.trans hsame₁.rows, hsame.resources.trans hsame₁.resources,
          hsame.rescListTask.trans hsame₁.rescListTask⟩, ?_⟩
        simp only [hnumber, decide_false, List.foldlM_cons, htoken]
        exact hrest
    | false =>
      obtain rfl := h
      rw [rowTokens]
      by_cases hsetting : token = "Start".toList ∨ token = "Stop".toList
      · obtain ⟨l, hl, htoken⟩ := parseToken_setting hsetting p
        obtain ⟨p', hsame, hrest⟩ := ih true hl p
        refine ⟨p', hsame, ?_⟩
        simp only [if_pos hsetting, List.foldlM_cons, htoken]
        exact hrest
      · refine ⟨p, ⟨rfl, rfl, rfl⟩, ?_⟩
        rw [if_neg hsetting]
        exact ⟨fun hnil => absurd hnil (by simp), fun _ => rfl⟩

theorem rowTokens_head {tokens rest : List Token} {name : Token} {waiting : Bool}
    (h : rowTokens waiting tokens = name :: rest) :
    name ≠ "Start".toList ∧ name ≠ "Stop".toList := by
  induction tokens generalizing waiting with
  | nil => cases waiting <;> cases h
  | cons token tokens ih =>
    cases waiting with
    | true => exact ih h
    | false =>
      rw [rowTokens] at h
      split at h
      · exact ih h
      · rename_i hno
        obtain ⟨rfl, _⟩ := List.cons.inj h
        exact not_or.mp hno

end Settings

section Row

-- The line parser behind the name, with `counter` at the number it expects next.
structure Counting (counter : ℤ) (l : LineParser) : Prop where
  lineState : l.lineState = .task
  taskState : l.taskState = .idle
  counter : l.taskTokenCounter = counter

theorem foldlM_failed {p : Parser} {l : LineParser} (hline : l.lineState = .task)
    (htask : l.taskState = .failed) (tokens : List Token) :
    tokens.foldlM parseToken (p, l) = some (p, l) := by
  induction tokens with
  | nil => rfl
  | cons token tokens ih =>
    have htoken : parseToken (p, l) token = some (p, l) := by
      simp [parseToken, startLine, hline, htask]
    rw [List.foldlM_cons, htoken]
    exact ih

theorem taskToken_failed {l : LineParser} (h : l.taskTokenCounter ≠ 0) (token : Token) :
    (taskToken l token (-1)).lineState = l.lineState ∧
      (taskToken l token (-1)).taskState = .failed := by
  simp [taskToken, h]

theorem foldlM_short {p : Parser} {l : LineParser} {n : ℕ} (h : Counting (4 - n) l) (hn : n ≤ 3)
    {tokens : List Token} (hno : ¬Numbers (n + 1) tokens) :
    ∃ l', tokens.foldlM parseToken (p, l) = some (p, l') ∧ l'.taskState ≠ .finished := by
  induction tokens generalizing l n with
  | nil =>
    refine ⟨l, rfl, ?_⟩
    rw [h.taskState]
    exact fun heq => by cases heq
  | cons token tokens ih =>
    have htoken : parseToken (p, l) token = some (p, taskToken l token (getNumber token)) := by
      simp [parseToken, startLine, h.lineState, h.taskState]
    rw [List.foldlM_cons, htoken]
    by_cases hnumber : getNumber token = -1
    · have hcounter : l.taskTokenCounter ≠ 0 := by
        rw [h.counter]
        omega
      obtain ⟨hline, htask⟩ := taskToken_failed hcounter token
      rw [hnumber]
      refine ⟨_, foldlM_failed (hline.trans h.lineState) htask tokens, ?_⟩
      rw [htask]
      exact fun heq => by cases heq
    · have hrest : ¬Numbers n tokens := fun hnumbers => hno ⟨hnumber, hnumbers⟩
      cases n with
      | zero => exact absurd trivial hrest
      | succ n =>
        have hnext : Counting (4 - n) (taskToken l token (getNumber token)) := by
          have hcounter := h.counter
          have hcases : n = 0 ∨ n = 1 ∨ n = 2 := by omega
          rcases hcases with rfl | rfl | rfl
          · constructor <;> simp [taskToken, hcounter, hnumber, h.lineState, h.taskState]
          · constructor <;> simp [taskToken, hcounter, hnumber, h.lineState, h.taskState]
          · constructor <;> simp [taskToken, hcounter, hnumber, h.lineState, h.taskState]
        exact ih hnext (by omega) hrest

def named (name : Token) : LineParser :=
  { LineParser.fresh with
    lineState := .task, taskTokenCounter := 1, name := some (String.ofList name) }

-- The line parser behind the four numbers of a row.
def entered (name tPh tPer tE tD : Token) : LineParser :=
  { LineParser.fresh with
    lineState := .resc
    taskState := .finished
    taskTokenCounter := 5
    name := some (String.ofList name)
    tPh := (getNumber tPh).toUInt32
    tPer := (getNumber tPer).toUInt32
    tE := (getNumber tE).toUInt32
    tD := (getNumber tD).toUInt32 }

theorem parseToken_name {name : Token} (hstart : name ≠ "Start".toList)
    (hstop : name ≠ "Stop".toList) (p : Parser) :
    parseToken (p, LineParser.fresh) name = some (p, named name) := by
  have hline : startLine LineParser.fresh name = { LineParser.fresh with lineState := .task } := by
    have hidle : LineParser.fresh.lineState = .idle := rfl
    rw [startLine, if_pos hidle, if_neg hstart, if_neg hstop]
  rw [parseToken]
  simp only [hline]
  rfl

theorem foldlM_entered {name tPh tPer tE tD : Token} (hstart : name ≠ "Start".toList)
    (hstop : name ≠ "Stop".toList) {rest : List Token}
    (hnumbers : Numbers 4 (tPh :: tPer :: tE :: tD :: rest)) (p : Parser) :
    (name :: tPh :: tPer :: tE :: tD :: rest).foldlM parseToken (p, LineParser.fresh) =
      rest.foldlM parseToken (p, entered name tPh tPer tE tD) := by
  obtain ⟨hph, hper, he, hd, _⟩ := hnumbers
  simp only [List.foldlM_cons, parseToken_name hstart hstop, Option.bind_eq_bind, Option.bind_some]
  simp [parseToken, startLine, taskToken, named, LineParser.fresh, hph, hper, he, hd, entered]

theorem parseLine_rejected {line : List Char} (h : ¬Accepted (strtok line)) (p : Parser) :
    ∃ p', SameTable p p' ∧ parseLine p line = some p' := by
  obtain ⟨p', hsame, hnone, hsome⟩ :=
    foldlM_settings (strtok line) false (l := LineParser.fresh) rfl p
  refine ⟨p', hsame, ?_⟩
  have hend : ∃ l', (strtok line).foldlM parseToken (p, LineParser.fresh) = some (p', l') ∧
      l'.taskState ≠ .finished := by
    cases hrow : rowTokens false (strtok line) with
    | nil =>
      obtain ⟨l', hl', hidle⟩ := hnone hrow
      refine ⟨l', hl', ?_⟩
      rw [hidle]
      exact fun heq => by cases heq
    | cons name rest =>
      obtain ⟨hstart, hstop⟩ := rowTokens_head hrow
      rw [hsome (by rw [hrow]; simp), hrow, List.foldlM_cons, parseToken_name hstart hstop]
      exact foldlM_short (n := 3) ⟨rfl, rfl, rfl⟩ (le_refl 3) (fun hnumbers => h ⟨name, rest, hrow, hnumbers⟩)
  obtain ⟨l', hl', hunfinished⟩ := hend
  rw [parseLine, hl', Option.bind_some, endLine, if_neg hunfinished]

theorem numbers_four {rest : List Token} (h : Numbers 4 rest) :
    ∃ tPh tPer tE tD rest', rest = tPh :: tPer :: tE :: tD :: rest' := by
  rcases rest with _ | ⟨a, _ | ⟨b, _ | ⟨c, _ | ⟨d, rest⟩⟩⟩⟩
  · exact h.elim
  · exact h.2.elim
  · exact h.2.2.elim
  · exact h.2.2.2.elim
  · exact ⟨a, b, c, d, rest, rfl⟩

theorem parseLine_accepted {line : List Char} (h : Accepted (strtok line)) (p : Parser) :
    ∃ p' name tPh tPer tE tD rest, SameTable p p' ∧
      rowTokens false (strtok line) = name :: tPh :: tPer :: tE :: tD :: rest ∧
      Numbers 4 (tPh :: tPer :: tE :: tD :: rest) ∧
      parseLine p line = (rest.foldlM parseToken (p', entered name tPh tPer tE tD)).bind
        (fun s => endLine s.1 s.2) := by
  obtain ⟨name, rest, hrow, hnumbers⟩ := h
  obtain ⟨tPh, tPer, tE, tD, rest, rfl⟩ := numbers_four hnumbers
  obtain ⟨p', hsame, _, hsome⟩ :=
    foldlM_settings (strtok line) false (l := LineParser.fresh) rfl p
  obtain ⟨hstart, hstop⟩ := rowTokens_head hrow
  refine ⟨p', name, tPh, tPer, tE, tD, rest, hsame, hrow, hnumbers, ?_⟩
  rw [parseLine, hsome (by rw [hrow]; simp), hrow, foldlM_entered hstart hstop hnumbers]

end Row

end Simulator
