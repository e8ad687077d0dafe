/-!
# Worklists

A walk that keeps the items it has still to visit in a list. A visit may change the state, write
output, and ask for further items, which are then visited before all that was pending.
-/

namespace LiveQuery

structure Worklist (ι σ ω : Type) where
  pending : List ι
  state : σ
  output : Array ω := #[]

namespace Worklist

variable {ι σ ω : Type}

/-- Visits the first pending item, if there is one. -/
def step (visit : ι → σ → List ι × σ × List ω) (w : Worklist ι σ ω) : Worklist ι σ ω :=
  match w with
  | ⟨[], state, output⟩ => ⟨[], state, output⟩
  | ⟨item :: rest, state, output⟩ =>
    let (next, state, written) := visit item state
    ⟨next ++ rest, state, output ++ written⟩

/-- Visits until nothing is pending, at most `fuel` times. -/
def run (visit : ι → σ → List ι × σ × List ω) : Nat → Worklist ι σ ω → Worklist ι σ ω
  | 0, w => w
  | fuel + 1, w => if w.pending.isEmpty then w else run visit fuel (w.step visit)

variable (visit : ι → σ → List ι × σ × List ω)

theorem step_cons (item : ι) (rest : List ι) (state : σ) (output : Array ω) :
    step visit ⟨item :: rest, state, output⟩ =
      ⟨(visit item state).1 ++ rest, (visit item state).2.1, output ++ (visit item state).2.2⟩ :=
  rfl

theorem run_of_finished (fuel : Nat) {w : Worklist ι σ ω} (h : w.pending = []) :
    run visit fuel w = w := by
  cases fuel <;> simp [run, h]

theorem run_succ (fuel : Nat) (w : Worklist ι σ ω) :
    run visit (fuel + 1) w = run visit fuel (w.step visit) := by
  obtain ⟨pending, state, output⟩ := w
  cases pending with
  | nil => rw [run_of_finished visit _ rfl, step, run_of_finished visit _ rfl]
  | cons item rest => simp [run]

theorem run_add (m n : Nat) (w : Worklist ι σ ω) :
    run visit (m + n) w = run visit n (run visit m w) := by
  induction m generalizing w with
  | zero => simp [run]
  | succ m ih => rw [Nat.succ_add, run_succ, run_succ, ih]

end Worklist

end LiveQuery
