import ApiGraph.Document.Access

namespace ApiGraph.Reachability

structure ArrayIndex where
  byIdentity : OrderedMap NodeId Key
  byItemsRef : OrderedMap String Key
  byItemsType : OrderedMap String Key
  -- How many array components have items of each type.
  typeCounts : OrderedMap String Nat

namespace ArrayIndex

def empty : ArrayIndex := ⟨.empty, .empty, .empty, .empty⟩

def items? (s : Store) (m : Entries) : Option Entries :=
  ((m.field? "items").bind s.asMapping?).map Prod.snd

-- A type keeps its component only as long as it has one.
def addType (ix : ArrayIndex) (name : Key) (type : String) : ArrayIndex :=
  let count := (ix.typeCounts.get? type).getD 0 + 1
  { ix with
    typeCounts := ix.typeCounts.insert type count
    byItemsType :=
      if count = 1 then ix.byItemsType.insert type name else ix.byItemsType.erase type }

def addRef (ix : ArrayIndex) (name : Key) (ref : String) : ArrayIndex :=
  { ix with byItemsRef := ix.byItemsRef.insert ref name }

def addItems (s : Store) (ix : ArrayIndex) (name : Key) (items : Entries) : ArrayIndex :=
  let ix := match items.ref? with
    | some ref => ix.addRef name ref
    | none => ix
  match s.schemaType? items with
  | some type => ix.addType name type
  | none => ix

def add (s : Store) (ix : ArrayIndex) (e : Key × Value) : ArrayIndex :=
  match s.asMapping? e.2 with
  | none => ix
  | some (id, m) =>
      let ix := { ix with byIdentity := ix.byIdentity.insert id e.1 }
      if s.schemaType? m = some "array" then
        match items? s m with
        | some items => addItems s ix e.1 items
        | none => ix
      else ix

def ofRegistry (s : Store) (registry : Entries) : ArrayIndex :=
  registry.entries.foldl (add s) empty

-- A component under the null key counts as one without a name.
def isName (name : Key) : Bool := name.scalar != .null

def find? (s : Store) (ix : ArrayIndex) (id : NodeId) (m : Entries) (byType : Bool) :
    Option Key :=
  (ix.byIdentity.get? id).filter isName <|> do
    let items ← items? s m
    let name ← (items.ref?.bind ix.byItemsRef.get?) <|>
      (if byType && items.ref?.isNone then (s.schemaType? items).bind ix.byItemsType.get? else none)
    if isName name then some name else none

end ArrayIndex

end ApiGraph.Reachability
