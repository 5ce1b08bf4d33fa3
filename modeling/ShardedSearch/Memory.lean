/-! # Memory

How much memory a program can ask for at once, however much there is.
-/

namespace ShardedSearch

/-- Bytes that can be asked for at once. -/
def bytesMax : Nat := UInt64.size / 2 - 1

end ShardedSearch
