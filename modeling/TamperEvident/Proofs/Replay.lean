import TamperEvident.Chain

/-! Replaying a chain one block further. -/

namespace TamperEvident.Chain

def headLink? (links : List ChainLink) : Option Bytes := links.getLast?.map ChainLink.linkHash

theorem length_replayFrom (h : HashAlgorithm) (previous : Option Bytes) (blocks : List Bytes) :
    (replayFrom h previous blocks).length = blocks.length := by
  induction blocks generalizing previous with
  | nil => rfl
  | cons raw rest ih => rw [replayFrom, List.length_cons, ih, List.length_cons]

theorem length_replay (h : HashAlgorithm) (blocks : List Bytes) :
    (replay h blocks).length = blocks.length := length_replayFrom h none blocks

theorem headLink?_replayFrom_cons (h : HashAlgorithm) (previous : Option Bytes) (first : Bytes)
    (rest : List Bytes) :
    (headLink? (replayFrom h previous (first :: rest))).or previous =
      (headLink? (replayFrom h (some (nextLink h previous first).linkHash) rest)).or
        (some (nextLink h previous first).linkHash) := by
  rw [replayFrom, headLink?, headLink?, List.getLast?_cons]
  cases (replayFrom h (some (nextLink h previous first).linkHash) rest).getLast? <;> rfl

theorem replayFrom_concat (h : HashAlgorithm) (previous : Option Bytes) (blocks : List Bytes)
    (raw : Bytes) :
    replayFrom h previous (blocks ++ [raw]) = replayFrom h previous blocks ++
      [nextLink h ((headLink? (replayFrom h previous blocks)).or previous) raw] := by
  induction blocks generalizing previous with
  | nil => rfl
  | cons first rest ih =>
    rw [headLink?_replayFrom_cons, List.cons_append, replayFrom, ih, replayFrom, List.cons_append]

theorem replay_concat (h : HashAlgorithm) (blocks : List Bytes) (raw : Bytes) :
    replay h (blocks ++ [raw]) =
      replay h blocks ++ [nextLink h (headLink? (replay h blocks)) raw] := by
  rw [replay, replayFrom_concat, Option.or_none]
  rfl

end TamperEvident.Chain
