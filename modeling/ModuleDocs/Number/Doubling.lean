/-!
# Doubling

Work on long lists goes by halves: what fits `1 <<< (k + 1)` places is split into parts
that fit `1 <<< k` places.  `le_shiftLeft_doublings` says that `doublings n` steps are
enough for `n` places.
-/

namespace ModuleDocs

/-- A number of times to double one until it is `n` or more. -/
def doublings (n : Nat) : Nat := Nat.log2 n + 1

theorem le_shiftLeft_doublings (n : Nat) : n ≤ 1 <<< doublings n := by
  rw [Nat.one_shiftLeft]
  exact Nat.le_of_lt Nat.lt_log2_self

/-- Shifting one place further doubles a power of two. -/
theorem shiftLeft_succ_eq_add (k : Nat) : 1 <<< (k + 1) = (1 <<< k) + (1 <<< k) := by
  rw [Nat.shiftLeft_succ]
  omega

end ModuleDocs
