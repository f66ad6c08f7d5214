import Degoonification.Domains.Labels

/-! `DomainRadixTree`: the label tree, its operations, and runs of operations.
The children of a node are an `std::unordered_map` whose iteration order the code
never uses; here they are an association list read by its first entry for a
label. A file is the bytes `std::ifstream` yields, `none` when it cannot be
opened. -/

namespace Degoonification

inductive Node where
  | mk (isTerminal : Bool) (children : List (Bytes × Node))

namespace Node

def isTerminal : Node → Bool
  | mk t _ => t

def children : Node → List (Bytes × Node)
  | mk _ cs => cs

@[simp] theorem isTerminal_mk (t : Bool) (cs : List (Bytes × Node)) :
    (mk t cs).isTerminal = t := rfl

@[simp] theorem children_mk (t : Bool) (cs : List (Bytes × Node)) : (mk t cs).children = cs := rfl

theorem mk_eta (n : Node) : mk n.isTerminal n.children = n := by cases n; rfl

/-- A node as `std::make_unique<Node>()` builds it. -/
def fresh : Node := mk false []

/-- `children.find(label)`. -/
def child (n : Node) (label : Bytes) : Option Node := n.children.lookup label

/-- `children[label] = node`. -/
def setChild (label : Bytes) (node : Node) : List (Bytes × Node) → List (Bytes × Node)
  | [] => [(label, node)]
  | e :: cs => if e.1 = label then (label, node) :: cs else e :: setChild label node cs

/-- The walk of `insert` over the labels, top-level domain first. The flag says
whether the walk made a terminal node, the only place that counts a rule. -/
def insertLabels : List Bytes → Node → Node × Bool
  | [], n => if n.isTerminal then (n, false) else (mk true [], true)
  | label :: labels, n =>
    -- a broader parent domain is already blocked
    if n.isTerminal then (n, false)
    else
      let r := insertLabels labels ((n.child label).getD fresh)
      (mk n.isTerminal (setChild label r.1 n.children), r.2)

/-- The walk of `matches` over the labels, top-level domain first. -/
def matchLabels : List Bytes → Node → Bool
  | [], n => n.isTerminal
  | label :: labels, n =>
    match n.child label with
    | none => false
    | some c => if c.isTerminal then true else matchLabels labels c

end Node

structure DomainRadixTree where
  root : Node
  totalRules : ℕ

namespace DomainRadixTree

/-- The constructor. -/
def empty : DomainRadixTree := ⟨Node.fresh, 0⟩

def insert (t : DomainRadixTree) (domain : Bytes) : DomainRadixTree :=
  let labels := splitDomainLabels domain
  if labels = [] then t
  else
    let r := Node.insertLabels labels.reverse t.root
    ⟨r.1, if r.2 then t.totalRules + 1 else t.totalRules⟩

/-- `matches`; the root pointer is never null. -/
def matchesDomain (t : DomainRadixTree) (domain : Bytes) : Bool :=
  let labels := splitDomainLabels domain
  if labels = [] then false else Node.matchLabels labels.reverse t.root

def size (t : DomainRadixTree) : ℕ := t.totalRules

def clear (_ : DomainRadixTree) : DomainRadixTree := empty

/-! ### Blocklist files -/

/-- The lines `std::getline` yields: no line follows a final newline. -/
def getlines (text : Bytes) : List Bytes :=
  let lines := text.splitOn 10
  if lines.getLast? = some [] then lines.dropLast else lines

/-- `" \t"`. -/
def isBlank (c : UInt8) : Bool := c == 32 || c == 9

/-- `"0.0.0.0"` and `"127.0.0.1"`. -/
def hostsAddresses : List Bytes :=
  [[48, 46, 48, 46, 48, 46, 48], [49, 50, 55, 46, 48, 46, 48, 46, 49]]

/-- The view after the hosts-file address: from the first blank on, and from the
first non-blank after it when there is one. -/
def skipAddress (sv : Bytes) : Bytes :=
  match sv.dropWhile fun c => !isBlank c with
  | [] => sv
  | rest => match rest.dropWhile isBlank with
    | [] => rest
    | domain => domain

/-- The string one line of a blocklist passes to `insert`, if any. -/
def lineDomain (line : Bytes) : Option Bytes :=
  let line := line.takeWhile fun c => c != 35
  let sv := line.dropWhile fun c => isBlank c || c == 13 || c == 10
  if sv = [] then none
  else
    let sv := if hostsAddresses.any fun a => a.isPrefixOf sv then skipAddress sv else sv
    if sv = [] then none else some sv

/-- One round of the `getline` loop; the state is the tree and `count`. -/
def loadLine (s : DomainRadixTree × ℕ) (line : Bytes) : DomainRadixTree × ℕ :=
  match lineDomain line with
  | none => s
  | some domain => (s.1.insert domain, s.2 + 1)

/-- The new tree and the returned count. -/
def loadFromFile (t : DomainRadixTree) : Option Bytes → DomainRadixTree × ℕ
  | none => (t, 0)
  | some text => (getlines text).foldl loadLine (t, 0)

/-! ### Runs -/

inductive Op where
  | insert (domain : Bytes)
  | loadFromFile (file : Option Bytes)
  | clear

def step (t : DomainRadixTree) : Op → DomainRadixTree
  | .insert domain => t.insert domain
  | .loadFromFile file => (t.loadFromFile file).1
  | .clear => t.clear

def run (ops : List Op) : DomainRadixTree := ops.foldl step empty

/-- The strings a file passes to `insert`, in order. -/
def fileDomains : Option Bytes → List Bytes
  | none => []
  | some text => (getlines text).filterMap lineDomain

/-- What a step does to the strings inserted since the last `clear`. -/
def liveStep (ds : List Bytes) : Op → List Bytes
  | .insert domain => ds ++ [domain]
  | .loadFromFile file => ds ++ fileDomains file
  | .clear => []

/-- The strings passed to `insert` since the last `clear`. -/
def liveDomains (ops : List Op) : List Bytes := ops.foldl liveStep []

theorem foldl_loadLine (lines : List Bytes) (t : DomainRadixTree) (n : ℕ) :
    lines.foldl loadLine (t, n) =
      ((lines.filterMap lineDomain).foldl insert t, n + (lines.filterMap lineDomain).length) := by
  induction lines generalizing t n with
  | nil => rfl
  | cons line lines ih =>
    cases hd : lineDomain line with
    | none => simp only [List.foldl_cons, loadLine, hd, List.filterMap_cons, ih]
    | some d =>
      simp only [List.foldl_cons, loadLine, hd, List.filterMap_cons, ih, List.length_cons]
      rw [Nat.add_right_comm, Nat.add_assoc]

theorem loadFromFile_eq (t : DomainRadixTree) (file : Option Bytes) :
    t.loadFromFile file = ((fileDomains file).foldl insert t, (fileDomains file).length) := by
  cases file with
  | none => rfl
  | some text => simp only [loadFromFile, fileDomains, foldl_loadLine, Nat.zero_add]

theorem foldl_step (ops : List Op) (ds : List Bytes) :
    ops.foldl step (ds.foldl insert empty) = (ops.foldl liveStep ds).foldl insert empty := by
  induction ops generalizing ds with
  | nil => rfl
  | cons op ops ih =>
    rw [List.foldl_cons, List.foldl_cons, ← ih]
    cases op with
    | insert d => rw [liveStep, List.foldl_append]; rfl
    | loadFromFile file => rw [liveStep, List.foldl_append, step, loadFromFile_eq]
    | clear => rfl

/-- The tree after a run depends only on the strings inserted since the last
`clear`. -/
theorem run_eq (ops : List Op) : run ops = (liveDomains ops).foldl insert empty :=
  foldl_step ops []

end DomainRadixTree

end Degoonification
