import Chip8.Raster

namespace Chip8.Png

def word (n : Nat) : Array UInt8 :=
  #[UInt8.ofNat (n / 0x1000000), UInt8.ofNat (n / 0x10000), UInt8.ofNat (n / 0x100), UInt8.ofNat n]

def checkBit (c : UInt32) : UInt32 := if c &&& 1 = 1 then (c >>> 1) ^^^ 0xEDB88320 else c >>> 1

def chunkCheck (bs : Array UInt8) : UInt32 :=
  let c := bs.foldl (fun c b ↦ Nat.repeat checkBit 8 (c ^^^ b.toUInt32)) 0xFFFFFFFF
  c ^^^ 0xFFFFFFFF

def dataCheck (bs : Array UInt8) : Nat :=
  let (a, b) := bs.foldl (fun (a, b) x ↦
    let a := (a + x.toNat) % 65521
    (a, (b + a) % 65521)) (1, 0)
  b * 0x10000 + a

def chunk (kind : String) (data : Array UInt8) : Array UInt8 :=
  let body := (kind.toList.map fun c ↦ UInt8.ofNat c.toNat).toArray ++ data
  word data.size ++ body ++ word (chunkCheck body).toNat

def block (last : Bool) (bs : Array UInt8) : Array UInt8 :=
  let n := bs.size
  let m := 0xFFFF - n
  #[if last then 1 else 0, UInt8.ofNat n, UInt8.ofNat (n / 0x100), UInt8.ofNat m,
    UInt8.ofNat (m / 0x100)] ++ bs

def blockLimit : Nat := 0xFFFF

def stored (bs : Array UInt8) : Array UInt8 :=
  let count := bs.size / blockLimit + 1
  let blocks := (List.range count).foldl (fun out k ↦
    out ++ block (k + 1 == count) (bs.extract (k * blockLimit) ((k + 1) * blockLimit)))
    #[0x78, 0x01]
  blocks ++ word (dataCheck bs)

def scanLines (r : Raster) : Array UInt8 :=
  (List.range r.height).foldl (fun out y ↦
    out.push 0 ++ r.bytes.extract (4 * r.width * y) (4 * r.width * (y + 1))) #[]

def encode (r : Raster) : Array UInt8 :=
  #[0x89, 0x50, 0x4E, 0x47, 0x0D, 0x0A, 0x1A, 0x0A] ++
    chunk "IHDR" (word r.width ++ word r.height ++ #[8, 6, 0, 0, 0]) ++
    chunk "IDAT" (stored (scanLines r)) ++ chunk "IEND" #[]

end Chip8.Png
