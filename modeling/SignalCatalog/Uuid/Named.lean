import SignalCatalog.Tree.Basic
import SignalCatalog.Uuid.Sha1
/-!
# Name-based identifiers

The identifier of a node is computed from its qualified name alone, so it is the same in every run: the hash of a name
space and the name, sixteen bytes of it, marked as version five.
-/
namespace SignalCatalog
namespace Uuid

def bytes (s : String) : List UInt8 := s.toUTF8.toList

/-- **The identifier of a name in a name space**, sixteen bytes. -/
def named (nameSpace : List UInt8) (name : String) : List UInt8 :=
  ((Sha1.hash (nameSpace ++ bytes name)).take 16).mapIdx fun i b =>
    if i = 6 then (b &&& 0x0F) ||| 0x50 else if i = 8 then (b &&& 0x3F) ||| 0x80 else b

def objectIdentifiers : List UInt8 :=
  [0x6b, 0xa7, 0xb8, 0x12, 0x9d, 0xad, 0x11, 0xd1, 0x80, 0xb4, 0x00, 0xc0, 0x4f, 0xd4, 0x30, 0xc8]

def signals : List UInt8 := named objectIdentifiers "vehicle_signal_specification"

def hex (bs : List UInt8) : String :=
  String.ofList (bs.flatMap fun b => [Nat.digitChar (b.toNat / 16), Nat.digitChar (b.toNat % 16)])

/-- **The identifier of a node's qualified name**, in thirty-two digits. -/
def ofName (fqn : String) : String := hex (named signals fqn)

end Uuid

/-- **Every node of the tree with its identifier.** -/
def Tree.addUuids (t : Tree) : Tree :=
  t.withForest (t.preorder.foldl (fun f id => f.modify id fun n => { n with uuid := some (Uuid.ofName (t.fqn id)) })
    t.toForest)

end SignalCatalog
