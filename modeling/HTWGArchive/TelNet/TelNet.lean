import HTWGArchive.Library.JavaInt
import HTWGArchive.Library.LeastFirst
import HTWGArchive.Library.SpanningForest
import HTWGArchive.TelNet.UnionFind

namespace TelNetApplication

open JavaInt

structure TelKnoten where
  x : JInt
  y : JInt
  deriving DecidableEq

-- A connection object is identified by its reference, as `TelVerbindung` has no `equals`.
structure TelVerbindung where
  ref : ℕ
  c : Int
  u : TelKnoten
  v : TelKnoten
  deriving DecidableEq

-- What the code relies on in `PriorityQueue` and `HashMap`; `content` is what a queue holds.
class Collections (Q : Type*) where
  empty : Q
  add : Q → TelVerbindung → Q
  poll : Q → Option (TelVerbindung × Q)
  content : Q → List TelVerbindung
  keySet : List (TelKnoten × ℕ) → List TelKnoten
  content_empty : content empty = []
  content_add : ∀ q v, (content (add q v)).Perm (v :: content q)
  poll_none : ∀ q, poll q = none → content q = []
  poll_some : ∀ q v q', poll q = some (v, q') →
    (content q).Perm (v :: content q') ∧ ∀ w ∈ content q, v.c ≤ w.c
  keySet_perm : ∀ m, (keySet m).Perm (m.map Prod.fst)

open Collections

-- A queue that is sorted when it is polled.
instance : Collections (List TelVerbindung) where
  empty := []
  add q v := v :: q
  poll q := LeastFirst.pop (fun e => e.c) q
  content q := q
  keySet m := m.map Prod.fst
  content_empty := rfl
  content_add _ _ := List.Perm.refl _
  poll_none _ h := LeastFirst.pop_eq_none h
  poll_some _ _ _ h := LeastFirst.pop_eq_some h
  keySet_perm _ := List.Perm.refl _

-- `created` lists all connection objects in the order of their construction.
structure TelNet (Q : Type*) where
  lbg : Int
  telMap : List (TelKnoten × ℕ)
  telQueue : Q
  optTelNet : List TelVerbindung
  size : ℕ
  created : List TelVerbindung

namespace TelNet

variable {Q : Type*} [Collections Q]

def new (lbg : Int) : TelNet Q where
  telMap := []
  optTelNet := []
  telQueue := empty
  lbg := lbg
  size := 0
  created := []

def get (telMap : List (TelKnoten × ℕ)) (k : TelKnoten) : Option ℕ :=
  (telMap.find? (fun e => e.1 = k)).map (·.2)

def dist (a b : TelKnoten) : Int :=
  int (JavaInt.abs (int (a.x.1 - b.x.1)) + JavaInt.abs (int (a.y.1 - b.y.1)))

def cost (t : TelNet Q) (a b : TelKnoten) : Int :=
  if dist a b ≤ t.lbg then dist a b else maxValue

-- The loop of `computeOptTelNet`; the first argument bounds how often its body runs.
def loop (telMap : List (TelKnoten × ℕ)) : ℕ → UnionFind → Q → List TelVerbindung →
    Option (UnionFind × Q × List TelVerbindung)
  | 0, forest, queue, opt =>
    if forest.size ≠ 1 ∧ content queue ≠ [] then none else some (forest, queue, opt)
  | fuel + 1, forest, queue, opt =>
    if forest.size ≠ 1 ∧ content queue ≠ [] then
      match poll queue with
      | none => none
      | some (min, queue) =>
        match get telMap min.u, get telMap min.v with
        | some i, some j =>
          match forest.find i, forest.find j with
          | some t1, some t2 =>
            if t1 ≠ t2 then
              match forest.union t1 t2 with
              | none => none
              | some forest => loop telMap fuel forest queue (opt ++ [min])
            else loop telMap fuel forest queue opt
          | _, _ => none
        | _, _ => none
    else some (forest, queue, opt)

def computeOptTelNet (t : TelNet Q) : Option (TelNet Q × Bool) :=
  match loop t.telMap (content t.telQueue).length (UnionFind.new t.size) t.telQueue t.optTelNet with
  | none => none
  | some (forest, queue, opt) =>
    some ({ t with telQueue := queue, optTelNet := opt },
      !(content queue).isEmpty || forest.size == 1)

def addTelVerbindung (t : TelNet Q) (x1 y1 x2 y2 : JInt) : TelNet Q :=
  let t1 : TelKnoten := ⟨x1, y1⟩
  let t2 : TelKnoten := ⟨x2, y2⟩
  if t.cost t1 t1 ≤ t.lbg ∧ t.cost t1 t2 < maxValue then
    let v1 : TelVerbindung := ⟨t.created.length, t.cost t1 t2, t1, t2⟩
    let v2 : TelVerbindung := ⟨t.created.length + 1, t.cost t2 t1, t2, t1⟩
    if (content t.telQueue).any (fun w => w.ref == v1.ref) then t
    else { t with telQueue := add (add t.telQueue v1) v2, created := t.created ++ [v1, v2] }
  else t

def connect (knoten : TelKnoten) (t : TelNet Q) (andere : TelKnoten) : TelNet Q :=
  if knoten.x ≠ andere.x ∧ knoten.y ≠ andere.y then
    t.addTelVerbindung andere.x andere.y knoten.x knoten.y
  else t

def addTelKnoten (t : TelNet Q) (x y : JInt) : TelNet Q × Bool :=
  let knoten : TelKnoten := ⟨x, y⟩
  if (get t.telMap knoten).isSome then (t, false)
  else
    let telMap := t.telMap ++ [(knoten, t.size)]
    ((keySet (Q := Q) telMap).foldl (connect knoten)
      { t with telMap := telMap, size := t.size + 1 }, true)

def getOptTelNet (t : TelNet Q) : List TelVerbindung :=
  t.optTelNet

def getOptTelNetKosten (t : TelNet Q) : Int :=
  t.optTelNet.foldl (fun sum v => int (sum + v.c)) 0

end TelNet

end TelNetApplication
