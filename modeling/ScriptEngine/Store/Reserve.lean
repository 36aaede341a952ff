/-!
# Reserves of growing sequences

A sequence that outgrows its cells moves to a larger row. How much larger decides which later
changes are still seen by someone who holds the old row, so the rule is part of the language's
behaviour: rows double while short and grow by a quarter when long, and their storage is rounded
up to the next block size of the allocator, every cell taking sixteen bytes.
-/

namespace ScriptEngine
namespace Reserve

/-- The block sizes of the allocator in bytes. -/
def blockSizes : List Nat :=
  [8, 16, 24, 32, 48, 64, 80, 96, 112, 128, 144, 160, 176, 192, 208, 224, 240, 256, 288, 320, 352,
    384, 416, 448, 480, 512, 576, 640, 704, 768, 896, 1024, 1152, 1280, 1408, 1536, 1792, 2048,
    2304, 2688, 3072, 3200, 3456, 4096, 4864, 5376, 6144, 6528, 6784, 6912, 8192, 9472, 9728, 10240,
    10880, 12288, 13568, 14336, 16384, 18432, 19072, 20480, 21760, 24576, 27264, 28672, 32768]

/-- Larger rows take whole pages. -/
def pageSize : Nat :=
  8192

/-- Blocks above this size begin with a header of eight bytes. -/
def headerless : Nat :=
  512

/-- The usable size of the block for a number of bytes. -/
def roundUp (bytes : Nat) : Nat :=
  let header := if headerless < bytes then 8 else 0
  if bytes ≤ 32760 then
    match blockSizes.find? (bytes + header ≤ ·) with
    | some size => size - header
    | none => bytes
  else (bytes + pageSize - 1) / pageSize * pageSize

/-- How many cells fit the block for `n` cells. -/
def cells (n : Nat) : Nat :=
  roundUp (16 * n) / 16

/-- Below this many cells a row doubles. -/
def doubling : Nat :=
  256

/-- The number of cells aimed at when `old` cells do not hold `needed` elements. -/
def target (old needed : Nat) : Nat :=
  if 2 * old < needed then needed
  else if old < doubling then 2 * old
  else old + (old + 3 * doubling) / 4

/-- The number of cells after growing from `old` cells to hold `needed` elements. -/
def grow (old needed : Nat) : Nat :=
  cells (target old needed)

end Reserve
end ScriptEngine
