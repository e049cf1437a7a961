import LockFreeCore.ToMathlib.FiniteMap

/-! # The hash table

Nodes stand in a heap and are chained by their `next` pointers, a chain for each bucket; a deleted node
is gone from the heap, and following a pointer to no node is `none`. A key type comes with its `==` and
with the `sizeof(K)` bytes of each key, which are all that the hash reads. Loops are given fuel and are
`none` without it. The `int` `m_count` is far from overflow: there is a node for each key it counts.
-/

namespace LockFreeCore

structure HashTable.Node (K V : Type) where
  key : K
  value : V
  next : Option ℕ

structure HashTable (K V : Type) where
  heap : ℕ → Option (HashTable.Node K V)
  /-- The address of the next allocation. -/
  fresh : ℕ
  m_buckets : ℕ → Option ℕ
  m_bucketCount : ℕ
  m_count : ℤ

namespace HashTable

variable {K V : Type}

/-- `HashTable(bucketCount)`. -/
def create (bucketCount : ℕ) : HashTable K V where
  heap _ := none
  fresh := 0
  m_buckets _ := none
  m_bucketCount := bucketCount
  m_count := 0

/-- The loop of `hashOf`, from the FNV offset basis on. -/
def fnv (bytes : List UInt8) : UInt64 :=
  bytes.foldl (fun h byte => (h ^^^ byte.toUInt64) * 1099511628211) 1469598103934665603

variable [BEq K] (bytes : K → List UInt8) (table : HashTable K V)

def hashOf (key : K) : ℕ := (fnv (bytes key)).toNat % table.m_bucketCount

def write (a : ℕ) (node : Option (Node K V)) : HashTable K V :=
  { table with heap := Function.update table.heap a node }

def setBucket (idx : ℕ) (pointer : Option ℕ) : HashTable K V :=
  { table with m_buckets := Function.update table.m_buckets idx pointer }

/-- The loop of the destructor along a chain, at `cur`. -/
def deleteChain : ℕ → HashTable K V → Option ℕ → Option (HashTable K V)
  | 0, _, _ => none
  | _ + 1, table, none => some table
  | fuel + 1, table, some cur => (table.heap cur).bind fun node => deleteChain fuel (table.write cur none) node.next

/-- `~HashTable()`: bucket after bucket. -/
def destroy : Option (HashTable K V) :=
  (List.range table.m_bucketCount).foldlM (fun table i => deleteChain (table.fresh + 1) table (table.m_buckets i)) table

/-- The loop of `insert` and `find` along a chain, at `cur`: the node with the key. -/
def search (key : K) : ℕ → Option ℕ → Option (Option ℕ)
  | 0, _ => none
  | _ + 1, none => some none
  | fuel + 1, some cur => (table.heap cur).bind fun node =>
      if node.key == key then some (some cur) else search key fuel node.next

def insert (key : K) (value : V) : Option (HashTable K V) :=
  let idx := table.hashOf bytes key
  (table.search key (table.fresh + 1) (table.m_buckets idx)).bind fun found =>
    match found with
    | some cur => (table.heap cur).map fun node => table.write cur (some { node with value := value })
    | none =>
      let linked := (table.write table.fresh (some ⟨key, value, table.m_buckets idx⟩)).setBucket idx (some table.fresh)
      some { linked with fresh := table.fresh + 1, m_count := table.m_count + 1 }

/-- `find`: the value that `outValue` is set to, when it is. -/
def find (key : K) : Option (Option V) :=
  (table.search key (table.fresh + 1) (table.m_buckets (table.hashOf bytes key))).bind fun found =>
    match found with
    | some cur => (table.heap cur).map fun node => some node.value
    | none => some none

/-- Node `cur` of bucket `idx` is taken out behind `prev` and deleted. -/
def unlink (idx : ℕ) (prev : Option ℕ) (cur : ℕ) (next : Option ℕ) : Option (HashTable K V) :=
  let linked : Option (HashTable K V) := match prev with
    | some p => (table.heap p).map fun node => table.write p (some { node with next := next })
    | none => some (table.setBucket idx next)
  linked.map fun table => { table.write cur none with m_count := table.m_count - 1 }

/-- The loop of `erase`. -/
def eraseLoop (key : K) (idx : ℕ) : ℕ → Option ℕ → Option ℕ → Option (HashTable K V × Bool)
  | 0, _, _ => none
  | _ + 1, _, none => some (table, false)
  | fuel + 1, prev, some cur => (table.heap cur).bind fun node =>
      if node.key == key then (table.unlink idx prev cur node.next).map fun table => (table, true)
      else eraseLoop key idx fuel (some cur) node.next

def erase (key : K) : Option (HashTable K V × Bool) :=
  let idx := table.hashOf bytes key
  table.eraseLoop key idx (table.fresh + 1) none (table.m_buckets idx)

def getCount : ℤ := table.m_count

def call : FiniteMap.Call K V → Option (HashTable K V × FiniteMap.Reply V)
  | .insert key value => (table.insert bytes key value).map fun table => (table, .inserted)
  | .erase key => (table.erase bytes key).map fun done => (done.1, .erased done.2)
  | .find key => (table.find bytes key).map fun value => (table, .found value)

end HashTable

end LockFreeCore
