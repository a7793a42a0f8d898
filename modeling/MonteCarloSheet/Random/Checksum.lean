/-! The CRC-32 checksum.

A text enters a random seed as the 32-bit cyclic redundancy check of its UTF-8
bytes, in the reflected form with the polynomial `0xEDB88320`, all bits inverted
before and after. -/
namespace MonteCarloSheet.Random

/-- One bit: a shift, and the polynomial if the bit shifted out is set. -/
def checksumBit (r : UInt32) : UInt32 :=
  if r &&& 1 = 1 then (r >>> 1) ^^^ 0xEDB88320 else r >>> 1

/-- One byte is its eight bits, lowest first. -/
def checksumByte (r : UInt32) (byte : UInt8) : UInt32 :=
  (checksumBit ∘ checksumBit ∘ checksumBit ∘ checksumBit ∘
    checksumBit ∘ checksumBit ∘ checksumBit ∘ checksumBit) (r ^^^ byte.toUInt32)

def checksumBytes (bytes : List UInt8) : UInt32 :=
  ~~~ bytes.foldl checksumByte 0xFFFFFFFF

theorem checksumBytes_nil : checksumBytes [] = 0 := by decide

def checksum (s : String) : UInt32 :=
  checksumBytes s.toUTF8.toList

end MonteCarloSheet.Random
