import RecordLayer.KeySchedule.Secret
import RecordLayer.Role

/-! # Key blocks

A key block is cut into consecutive parts, with those of the client before those of the server.
-/

namespace RecordLayer

structure DirectionKeys where
  mac : Bytes
  key : Bytes
  iv : Bytes

structure KeyBlock where
  (clientMac serverMac clientKey serverKey clientIv serverIv : Bytes)

namespace KeyBlock

def size (macSize keySize ivSize : Nat) : Nat := 2 * macSize + 2 * keySize + 2 * ivSize

/-- Cut a string into the parts of a key block, if it is long enough. -/
def split? (macSize keySize ivSize : Nat) (data : Bytes) : Option KeyBlock :=
  if data.length < size macSize keySize ivSize then none
  else
    let (clientMac, rest) := data.splitAt macSize
    let (serverMac, rest) := rest.splitAt macSize
    let (clientKey, rest) := rest.splitAt keySize
    let (serverKey, rest) := rest.splitAt keySize
    let (clientIv, rest) := rest.splitAt ivSize
    some ⟨clientMac, serverMac, clientKey, serverKey, clientIv, rest.take ivSize⟩

def keysOf (b : KeyBlock) : Role → DirectionKeys
  | .client => ⟨b.clientMac, b.clientKey, b.clientIv⟩
  | .server => ⟨b.serverMac, b.serverKey, b.serverIv⟩

end KeyBlock

end RecordLayer
