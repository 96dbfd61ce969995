import FixedPoint.Proofs.Machine.Failures
import FixedPoint.Proofs.Table.RoundTrip

/-!
# Tables in memory

A table that a step stored can be loaded again at any later time, into any registers, as long as no
step that succeeds has written one of its bytes. What happens to the registers, what fails and what
is stored elsewhere has no part in it.
-/

namespace FixedPoint.Machine

variable {F : Nat} {C : Word.Codec} {s : State F} {regs mem table target : Span}
  {values : List (Fixed F)}

/-- The bytes of the span are the packed values. -/
def State.Holds (s : State F) (C : Word.Codec) (table : Span) (values : List (Fixed F)) : Prop :=
  table.slice s.mem = Table.encode C values

theorem room_of_exec_store {reply : Reply F} (ok : ((Step.store regs mem).exec C s).1 = .ok reply) :
    Word.byteCount * (regs.slice s.regs).length ≤ (mem.slice s.mem).length := by
  apply Nat.le_of_not_lt
  intro short
  rw [Step.exec_store, Table.storeWith_of_lt short] at ok
  cases ok

/-- A step that succeeds in storing a table leaves it in the bytes that it writes. -/
theorem holds_exec_store (h : C.LittleEndian) {reply : Reply F}
    (inside : (Step.store regs mem).Within s)
    (ok : ((Step.store regs mem).exec C s).1 = .ok reply) :
    ((Step.store regs mem).exec C s).2.Holds C (Step.store regs mem).bytes (regs.slice s.regs) := by
  have count := Span.length_slice inside.1
  have size := Span.length_slice inside.2
  have room := room_of_exec_store ok
  have front : Word.byteCount * regs.length ≤ mem.length := by rwa [count, size] at room
  have same : (Table.storeWith C (regs.slice s.regs) (mem.slice s.mem)).2.length = mem.length := by
    rw [Table.length_snd_storeWith, size]
  have part : mem.slice ((Step.store regs mem).exec C s).2.mem =
      (Table.storeWith C (regs.slice s.regs) (mem.slice s.mem)).2 := by
    rw [Step.exec_store]
    exact Span.slice_splice inside.2 same
  unfold State.Holds Step.bytes
  calc (⟨mem.start, Word.byteCount * regs.length⟩ : Span).slice
        ((Step.store regs mem).exec C s).2.mem
      = (mem.slice ((Step.store regs mem).exec C s).2.mem).take (Word.byteCount * regs.length) :=
        (Span.take_slice front).symm
    _ = (Table.storeWith C (regs.slice s.regs) (mem.slice s.mem)).2.take
          (Word.byteCount * (regs.slice s.regs).length) := by rw [part, count]
    _ = Table.encode C (regs.slice s.regs) := Table.take_snd_storeWith h room

/-- A table stays in memory during a run whose successful steps write elsewhere. -/
theorem State.Holds.final {steps : List Step} (held : s.Holds C table values)
    (spared : ∀ step ∈ succeeding C s steps, step.bytes.Apart table) :
    (final C s steps).Holds C table values := by
  unfold Holds at held ⊢
  rw [← held, ← final_succeeding]
  apply Span.slice_congr
  intro i inside
  apply mem_final
  intro step member written
  exact spared step member i written inside

/-- A table in memory can be loaded into any registers that are enough for it. -/
theorem State.Holds.exec_load (held : s.Holds C table values) (h : C.LittleEndian)
    (inside : target.Within s.regs.length) (fits : values.length ≤ target.length) :
    ∃ t, (Step.load table target).exec C s = (.ok (.count values.length), t) ∧
      ∀ i < values.length, t.regs[target.start + i]? = values[i]? := by
  have slots := Span.length_slice inside
  have loaded : Table.loadWith C (Table.encode C values) (target.slice s.regs) = _ :=
    Table.loadWith_encode h (by omega)
  have same : (values ++ (target.slice s.regs).drop values.length).length =
      (target.slice s.regs).length := by
    rw [List.length_append, List.length_drop]
    omega
  rw [Step.exec_load, held, loaded]
  refine ⟨_, rfl, ?_⟩
  intro i front
  rw [Span.getElem?_splice same, same, if_pos (by omega), Nat.add_sub_cancel_left]
  exact List.getElem?_append_left front

/-- **A stored table survives unrelated work.** In any state that a run has come to, a step stores
the values of some registers. Others follow, and none of those that succeed writes a byte of the
table. Then loading it gives back the values that the registers had when they were stored. -/
theorem stored_table_survives (h : C.LittleEndian) (s : State F) (regs mem target : Span)
    (later : List Step) (reply : Reply F) (inside : (Step.store regs mem).Within s)
    (ok : ((Step.store regs mem).exec C s).1 = .ok reply)
    (spared : ∀ step ∈ succeeding C ((Step.store regs mem).exec C s).2 later,
      step.bytes.Apart (Step.store regs mem).bytes)
    (target_inside : target.Within s.regs.length) (fits : regs.length ≤ target.length) :
    ∃ t, (Step.load (Step.store regs mem).bytes target).exec C
          (final C s (.store regs mem :: later)) = (.ok (.count regs.length), t) ∧
      ∀ i < regs.length, t.regs[target.start + i]? = s.regs[regs.start + i]? := by
  have held := (holds_exec_store h inside ok).final spared
  have count := Span.length_slice inside.1
  have size := length_regs_final C ((Step.store regs mem).exec C s).2 later
  rw [Step.length_regs_exec] at size
  obtain ⟨t, loaded, back⟩ := held.exec_load h (by rwa [size]) (by rwa [count])
  rw [count] at loaded back
  refine ⟨t, loaded, ?_⟩
  intro i front
  rw [back i front, Span.getElem?_slice front]

/-- The table stands in bytes 4 to 11. Meanwhile its source registers change, a longer table does
not fit on top of it, and one that does is short enough to end before byte 4. -/
theorem stored_table_survives_neighbours :
    let C : Word.Codec := .littleEndian
    let s : State 15 := ⟨[.one, ⟨-3⟩, .zero, .zero], List.replicate 16 0xAA⟩
    let later : List Step := [.set 0 (.arithmetic .sub 1 0), .store ⟨0, 3⟩ ⟨4, 8⟩,
      .store ⟨1, 1⟩ ⟨0, 12⟩, .load ⟨0, 4⟩ ⟨1, 1⟩, .set 1 (.word 7)]
    ∃ t, (Step.load ⟨4, 8⟩ ⟨1, 3⟩).exec C (final C s (.store ⟨0, 2⟩ ⟨4, 12⟩ :: later)) =
        (.ok (.count 2), t) ∧
      t.regs[1]? = some .one ∧ t.regs[2]? = some ⟨-3⟩ ∧
      (final C s (.store ⟨0, 2⟩ ⟨4, 12⟩ :: later)).regs = [⟨-32771⟩, ⟨7⟩, .zero, .zero] := by
  intro C s later
  obtain ⟨t, loaded, back⟩ := stored_table_survives Word.Codec.littleEndian_lawful s ⟨0, 2⟩ ⟨4, 12⟩
    ⟨1, 3⟩ later (.count 8) (by decide) rfl (by decide) (by decide) (by decide)
  exact ⟨t, loaded, back 0 (by decide), back 1 (by decide), by decide⟩

end FixedPoint.Machine
