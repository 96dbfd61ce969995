import FixedPoint.Mac.Sum

namespace FixedPoint.Mac

variable {M : Mac} {c : Call} {l : List (Int32 × Int32)}

/-- The call that puts a request to the unit. -/
def call (M : Mac) (r : Request) : Call := ⟨r, M.answer r⟩

/-- The call `c`, then the calls that add the pairs one after another to its result. -/
def chain (M : Mac) (c : Call) : List (Int32 × Int32) → List Call
  | [] => [c]
  | p :: rest => c :: M.chain (M.call (.mulAdd c.result p.1 p.2)) rest

theorem length_chain (M : Mac) (c : Call) (l : List (Int32 × Int32)) :
    (M.chain c l).length = l.length + 1 := by
  induction l generalizing c with
  | nil => rfl
  | cons p rest ih => rw [chain, List.length_cons, ih, List.length_cons]

theorem getElem?_chain_zero (M : Mac) (c : Call) (l : List (Int32 × Int32)) :
    (M.chain c l)[0]? = some c := by
  cases l <;> rfl

/-- Every call after the first starts from the result of the call before it. -/
theorem getElem?_chain_succ {j : Nat} {p : Int32 × Int32} (h : l[j]? = some p) :
    ∃ before, (M.chain c l)[j]? = some before ∧
      (M.chain c l)[j + 1]? = some (M.call (.mulAdd before.result p.1 p.2)) := by
  induction l generalizing c j with
  | nil => cases h
  | cons q rest ih =>
    rw [chain]
    cases j with
    | zero =>
      cases h
      exact ⟨c, rfl, getElem?_chain_zero M _ rest⟩
    | succ j => exact ih h

theorem chain_concat (M : Mac) (c : Call) (l : List (Int32 × Int32)) (p : Int32 × Int32) :
    M.chain c (l ++ [p]) = M.chain c l ++
      [M.call (.mulAdd (l.foldl (fun acc q => M.mulAdd acc q.1 q.2) c.result) p.1 p.2)] := by
  induction l generalizing c with
  | nil => rfl
  | cons q rest ih =>
    rw [List.cons_append, chain, ih]
    rfl

/-- A chain ends with the accumulator after all its pairs. -/
theorem getLast?_chain (M : Mac) (c : Call) (l : List (Int32 × Int32)) :
    ∃ last, (M.chain c l).getLast? = some last ∧
      last.result = l.foldl (fun acc p => M.mulAdd acc p.1 p.2) c.result := by
  induction l generalizing c with
  | nil => exact ⟨c, rfl, rfl⟩
  | cons p rest ih =>
    obtain ⟨last, isLast, total⟩ := ih (M.call (.mulAdd c.result p.1 p.2))
    refine ⟨last, ?_, total⟩
    rw [chain, List.getLast?_cons, isLast]
    rfl

/-- The steps of a sum in the order in which they are made. -/
theorem sum_cons_eq_foldl (M : Mac) (p : Int32 × Int32) (rest : List (Int32 × Int32)) :
    M.sum (p :: rest) =
      rest.reverse.foldl (fun acc q => M.mulAdd acc q.1 q.2) (M.mul p.1 p.2) := by
  rw [sum_cons, List.foldl_reverse]

theorem snd_sumVia_cons_cons (M : Mac) (p q : Int32 × Int32) (rest : List (Int32 × Int32))
    (log : List Call) :
    (sumVia M.answerLogged (p :: q :: rest) log).2 =
      (sumVia M.answerLogged (p :: rest) log).2 ++
        [M.call (.mulAdd (sumVia M.answerLogged (p :: rest) log).1 q.1 q.2)] := by
  simp only [sumVia, List.foldrM_cons]
  rfl

/-- A sum adds one chain of calls to the log. -/
theorem snd_sumVia_answerLogged (M : Mac) (p : Int32 × Int32) (rest : List (Int32 × Int32))
    (log : List Call) :
    (sumVia M.answerLogged (p :: rest) log).2 =
      log ++ M.chain (M.call (.mul p.1 p.2)) rest.reverse := by
  induction rest with
  | nil => rfl
  | cons q rest ih =>
    rw [snd_sumVia_cons_cons, ih, fst_sumVia_answerLogged, sum_cons_eq_foldl, List.reverse_cons,
      chain_concat, List.append_assoc]
    rfl

end FixedPoint.Mac
