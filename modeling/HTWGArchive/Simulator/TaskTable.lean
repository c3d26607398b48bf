import HTWGArchive.Library.TokenRuns
import HTWGArchive.Simulator.Scheduling

namespace Simulator

abbrev Token := List Char

inductive LineState where
  | start
  | stop
  | task
  | resc
  | finished
  | failed
  | idle
  deriving DecidableEq, Repr

def delimiter : List Char :=
  "\x0c\x0b\t\r ".toList

def strtok (line : List Char) : List Token :=
  TokenRuns.runs (fun c => c ∈ delimiter) line

def isSpace (c : Char) : Bool :=
  c ∈ '\n' :: delimiter

def decimal (digits : List Char) : ℕ :=
  digits.foldl (fun n c => 10 * n + (c.toNat - 48)) 0

def strtolDigits (s : List Char) : Option ℕ :=
  if s.takeWhile Char.isDigit = [] then none else some (decimal (s.takeWhile Char.isDigit))

-- `none` where there is nothing to convert.
def strtol (s : List Char) : Option ℤ :=
  match s.dropWhile isSpace with
  | [] => none
  | c :: cs =>
    if c = '-' then (strtolDigits cs).map (fun n => -(n : ℤ))
    else if c = '+' then (strtolDigits cs).map (fun n => (n : ℤ))
    else (strtolDigits (c :: cs)).map (fun n => (n : ℤ))

-- A value out of the range of `long` sets `errno`; one within it is cut down to `int`.
def getNumber (token : Token) : Int32 :=
  match strtol token with
  | none => -1
  | some n => if n < -2 ^ 63 || 2 ^ 63 ≤ n then -1 else Int32.ofInt n

def checkIfResourceExists (resources : List String) (rescName : String) : Bool :=
  resources.any (fun name => name = rescName)

structure Parser where
  tStart : UInt32
  tStop : Int32
  rows : List TaskRow
  stats : List String
  resources : List String
  rescListTask : List (String × UInt32 × UInt32)
  deriving DecidableEq, Repr

-- The variables that `read_and_parse_input` sets anew for every line, the new task among them.
structure LineParser where
  lineState : LineState
  taskState : LineState
  rescState : LineState
  taskTokenCounter : ℤ
  rescTokenCounter : ℕ
  rescNum : Int32
  rescIndex : ℕ
  rescName : Option String
  tFrom : UInt32
  name : Option String
  tPh : UInt32
  tPer : UInt32
  tE : UInt32
  tD : UInt32
  deriving DecidableEq, Repr

def LineParser.fresh : LineParser where
  lineState := .idle
  taskState := .idle
  rescState := .idle
  taskTokenCounter := 0
  rescTokenCounter := 0
  rescNum := -1
  rescIndex := 0
  rescName := none
  tFrom := 0
  name := none
  tPh := 0
  tPer := 0
  tE := 0
  tD := 0

def Parser.empty : Parser where
  tStart := 0
  tStop := 0
  rows := []
  stats := []
  resources := []
  rescListTask := []

def startLine (l : LineParser) (token : Token) : LineParser :=
  if l.lineState = .idle then
    if token = "Start".toList then { l with lineState := .start }
    else if token = "Stop".toList then { l with lineState := .stop }
    else { l with lineState := .task }
  else l

def taskToken (l : LineParser) (token : Token) (tokNumVal : Int32) : LineParser :=
  if l.taskTokenCounter = 0 then
    { l with name := some (String.ofList token), taskTokenCounter := 1 }
  else
    let l := if tokNumVal = -1 then { l with taskState := .failed, taskTokenCounter := -1 } else l
    if l.taskTokenCounter = 1 then { l with tPh := tokNumVal.toUInt32, taskTokenCounter := 2 }
    else if l.taskTokenCounter = 2 then { l with tPer := tokNumVal.toUInt32, taskTokenCounter := 3 }
    else if l.taskTokenCounter = 3 then { l with tE := tokNumVal.toUInt32, taskTokenCounter := 4 }
    else if l.taskTokenCounter = 4 then
      { l with
        tD := tokNumVal.toUInt32
        taskTokenCounter := 5
        taskState := .finished
        lineState := .resc }
    else { l with taskTokenCounter := -1, taskState := .failed }

-- The third token of a triple. `resc_index` is an `int`, and `strcmp` reads the name.
def addEntry (p : Parser) (l : LineParser) (tokNumVal : Int32) : Option (Parser × LineParser) :=
  match l.rescName with
  | none => none
  | some name =>
    if 2 ^ 31 ≤ l.rescIndex + 1 then none
    else
      let l :=
        { l with
          rescState := if tokNumVal = -1 then .failed else l.rescState
          rescIndex := l.rescIndex + 1
          rescTokenCounter := 0 }
      some
        ({ p with
            resources :=
              if checkIfResourceExists p.resources name then p.resources else p.resources ++ [name]
            rescListTask := p.rescListTask ++ [(name, l.tFrom, tokNumVal.toUInt32)] },
          if (l.rescIndex : ℤ) ≤ l.rescNum.toInt then
            { l with taskState := .finished, rescState := .finished }
          else l)

def rescToken (p : Parser) (l : LineParser) (token : Token) (tokNumVal : Int32) :
    Option (Parser × LineParser) :=
  if l.rescNum = -1 ∧ tokNumVal ≠ -1 then
    some (p, { l with rescNum := tokNumVal, rescTokenCounter := 0 })
  else if l.rescTokenCounter = 0 then
    some (p, { l with rescName := some (String.ofList token), rescTokenCounter := 1 })
  else if l.rescTokenCounter = 1 then
    some (p, { l with
      rescState := if tokNumVal = -1 then .failed else l.rescState
      tFrom := tokNumVal.toUInt32
      rescTokenCounter := 2 })
  else addEntry p l tokNumVal

def parseToken (state : Parser × LineParser) (token : Token) : Option (Parser × LineParser) :=
  let p := state.1
  let l := startLine state.2 token
  let tokNumVal := getNumber token
  if l.lineState = .start ∧ tokNumVal ≠ -1 then
    some ({ p with tStart := tokNumVal.toUInt32 },
      { l with lineState := .idle, taskState := .idle, rescState := .idle })
  else if l.lineState = .stop ∧ tokNumVal ≠ -1 then
    some ({ p with tStop := tokNumVal },
      { l with lineState := .idle, taskState := .idle, rescState := .idle })
  else if l.lineState = .task ∧ l.taskState ≠ .failed then some (p, taskToken l token tokNumVal)
  else if l.lineState = .resc ∧ l.rescState ≠ .failed then rescToken p l token tokNumVal
  else some (p, l)

def endLine (p : Parser) (l : LineParser) : Option Parser :=
  if l.taskState = .finished then
    l.name.map (fun name =>
      { p with
        rows := p.rows ++ [⟨name, l.tPh, l.tPer, l.tE, l.tD, p.rescListTask⟩]
        stats := p.stats ++ [name]
        rescListTask := [] })
  else some p

def parseLine (p : Parser) (line : List Char) : Option Parser :=
  ((strtok line).foldlM parseToken (p, LineParser.fresh)).bind (fun s => endLine s.1 s.2)

def linesOf : List Char → List (List Char)
  | [] => []
  | c :: cs =>
    if c = '\n' then [c] :: linesOf cs
    else
      match linesOf cs with
      | [] => [[c]]
      | line :: rest => (c :: line) :: rest

-- What `getline` reads, up to the first null character of the line.
def getlines (content : List Char) : List (List Char) :=
  (linesOf content).map (List.takeWhile (fun c => c != Char.ofNat 0))

def readAndParseInput (content : List Char) : Option Parser :=
  (getlines content).foldlM parseLine Parser.empty

example : (readAndParseInput "Start 0\n A 1 5 3 4 1 R 0 2\n".toList).map Parser.rows =
    some [⟨"A", 1, 5, 3, 4, [("R", 0, 2)]⟩] := by
  decide +kernel

end Simulator
