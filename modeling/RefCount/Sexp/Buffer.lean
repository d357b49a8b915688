/-
The buffer that source text is gathered in. It is made larger when what is
added does not fit: to twice its size while it is small, by about a quarter at
a time when it is large, or just to what is needed if that is more. Memory
comes in blocks of certain sizes, and in whole pages beyond them, so there is
mostly some room left behind the text. The room holds zeros.
-/
namespace RefCount.Sexp.Buffer

def blockSizes : List Nat :=
  [8, 16, 24, 32, 48, 64, 80, 96, 112, 128, 144, 160, 176, 192, 208, 224, 240, 256, 288, 320, 352,
    384, 416, 448, 480, 512, 576, 640, 704, 768, 896, 1024, 1152, 1280, 1408, 1536, 1792, 2048,
    2304, 2688, 3072, 3200, 3456, 4096, 4864, 5120, 5376, 6144, 6528, 6784, 6912, 8192, 9472, 9728,
    10240, 10880, 12288, 13568, 14336, 16384, 18432, 19072, 20480, 21760, 24576, 27264, 28672,
    32768]

/-- The size of a page, of which larger blocks are made. -/
def pageSize : Nat := 8192

/-- The size of the block for so many bytes. -/
def blockFor (n : Nat) : Nat :=
  (blockSizes.find? (n ≤ ·)).getD ((n + pageSize - 1) / pageSize * pageSize)

/-- A large size made larger by about a quarter. -/
def quarterMore (n : Nat) : Nat := n + (n + 768) / 4

/-- The size to ask for when a buffer is too small. Four steps of a quarter
more than double a size. -/
def wanted (size need : Nat) : Nat :=
  if 2 * size < need then need
  else if size < 256 then 2 * size
  else
    let a := quarterMore size
    let b := quarterMore a
    let c := quarterMore b
    ([a, b, c].find? (need ≤ ·)).getD (quarterMore c)

/-- The size of a buffer when it has to hold so many bytes. -/
def grow (size need : Nat) : Nat :=
  if need ≤ size then size else blockFor (wanted size need)

end RefCount.Sexp.Buffer
