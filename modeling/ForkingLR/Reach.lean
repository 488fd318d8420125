/-! Breadth-first exploration of a finite graph, in order of discovery, and repetition of a
monotone pass until nothing changes. -/
namespace ForkingLR

namespace Reach
variable {α : Type} [DecidableEq α]

def discovered (next : α → List α) (seen frontier : List α) : List α :=
  ((frontier.flatMap next).filter fun a => decide (a ∉ seen)).eraseDups

/-- Lists `done`, then `frontier`, then everything `frontier` leads to, level by level.
One unit of fuel is one level. -/
def explore (next : α → List α) : Nat → List α → List α → List α
  | 0, done, frontier => done ++ frontier
  | fuel + 1, done, frontier =>
    match discovered next (done ++ frontier) frontier with
    | [] => done ++ frontier
    | found => explore next fuel (done ++ frontier) found

def closure (next : α → List α) (bound : Nat) (roots : List α) : List α :=
  explore next bound [] roots.eraseDups

end Reach

def stabilise {α : Type} [DecidableEq α] (pass : α → α) : Nat → α → α
  | 0, a => a
  | fuel + 1, a =>
    let b := pass a
    if b = a then a else stabilise pass fuel b

end ForkingLR
