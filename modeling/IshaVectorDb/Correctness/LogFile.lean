import IshaVectorDb.Correctness.LogWrites
import IshaVectorDb.Correctness.State

/-!
# `Correctness.LogFile` — the log's **file**

Appending to the log leaves the old log or the new one, or at a death inside the append something between
(`appendBytes_spec`).
-/

namespace IshaVectorDb.Engine

open Format Interaction KeyLog

section Calls

variable {S : Type} {sel : Sel} {x : S} {s : MemoryStorage} {path : DbPath} {d : FileData}
  {K : Call → Nat → Image → Prop} {G : Call → S → Image → Prop}

/-- Opening a file that is there. -/
theorem openFile_spec {mode : OpenMode} {Q : File → S → MemoryStorage → Prop} (hs : Shape s)
    (hd : s.get path = some (.file d)) (hQ : Q ⟨path, mode.isWritable⟩ x s)
    (hK : ∀ n, K (.openFile path mode) n (s.image sel)) (hG : G (.openFile path mode) x (s.image .live)) :
    Spec sel (call (.openFile path mode)) x s Q K G := by
  have hstep : device.step (.openFile path mode) s = (.ok ⟨path, mode.isWritable⟩, s) :=
    MemoryStorage.openFile_file mode hd
  refine Triple.call hstep hQ (fun n => ?_) (fun n => ?_)
  · have hcut : device.cut (.openFile path mode) n s = s := by
      have htwo : (MemoryStorage.step (.openFile path mode) s).2 = s := congrArg Prod.snd hstep
      exact (if_congr Iff.rfl rfl htwo).trans (ite_self s)
    rw [hcut]; exact ⟨hs, hK n⟩
  · have hfail : device.fail (.openFile path mode) n s = s := ite_self s
    rw [hfail]; exact ⟨hs, hG⟩

/-- The length of a file that is there. -/
theorem len_spec {w : Bool} {Q : Nat → S → MemoryStorage → Prop} (hs : Shape s) (hd : s.get path = some (.file d))
    (hQ : Q d.live.length x s) (hK : ∀ n, K (.len ⟨path, w⟩) n (s.image sel)) (hG : G (.len ⟨path, w⟩) x (s.image .live)) :
    Spec sel (call (.len ⟨path, w⟩)) x s Q K G := by
  refine read_spec hs trivial ?_ hQ hK hG
  show (MemoryStorage.len s ⟨path, w⟩, s) = _
  unfold MemoryStorage.len
  rw [hd]

/-- A call that edits one file, all at once. -/
theorem edit_spec {c : Call} {reply : c.Reply} {d' : FileData} {Q : c.Reply → S → MemoryStorage → Prop} (hs : Shape s)
    (hd : s.get path = some (.file d)) (hstep : device.step c s = (.ok reply, s.put path (.file d')))
    (hcut : ∀ n, device.cut c n s = if n = 0 then s else (device.step c s).2) (hfail : ∀ n, device.fail c n s = s)
    (hQ : Q reply x (s.put path (.file d'))) (hold : ∀ n, K c n (s.image sel))
    (hnew : ∀ n, K c n (Function.update (s.image sel) path (some (sel.of d')))) (hG : G c x (s.image .live)) :
    Spec sel (call c) x s Q K G := by
  have hp := hs.dirs path d hd
  have hparent := hs.nested path _ hd
  refine Triple.call hstep hQ (fun n => ?_) (fun n => ?_)
  · rw [hcut, hstep]
    show Shape (if n = 0 then s else _) ∧ K _ _ ((if n = 0 then s else _).image sel)
    split
    · exact ⟨hs, hold n⟩
    · refine ⟨hs.put_file hp hparent _, ?_⟩
      rw [MemoryStorage.image_put_file]; exact hnew n
  · rw [hfail]; exact ⟨hs, hG⟩

/-- **Emptying a file** that is there. -/
theorem truncate_spec {Q : Unit → S → MemoryStorage → Prop} (hs : Shape s) (hd : s.get path = some (.file d))
    (hQ : Q () x (s.put path (.file ⟨[], d.durable⟩))) (hold : ∀ n, K (.truncate ⟨path, true⟩ 0) n (s.image sel))
    (hnew : ∀ n, K (.truncate ⟨path, true⟩ 0) n (Function.update (s.image sel) path (some (sel.of ⟨[], d.durable⟩))))
    (hG : G (.truncate ⟨path, true⟩ 0) x (s.image .live)) : Spec sel (call (.truncate ⟨path, true⟩ 0)) x s Q K G := by
  have hstep := step_truncate hd 0
  rw [MemoryStorage.resize_zero] at hstep
  exact edit_spec hs hd hstep (fun n => rfl) (fun n => ite_self s) hQ hold hnew hG

/-- **Syncing a file** that is there. -/
theorem syncData_spec {Q : Unit → S → MemoryStorage → Prop} (hs : Shape s) (hd : s.get path = some (.file d))
    (hQ : Q () x (s.put path (.file ⟨d.live, d.live⟩))) (hold : ∀ n, K (.syncData ⟨path, true⟩) n (s.image sel))
    (hnew : ∀ n, K (.syncData ⟨path, true⟩) n (Function.update (s.image sel) path (some d.live)))
    (hG : G (.syncData ⟨path, true⟩) x (s.image .live)) : Spec sel (call (.syncData ⟨path, true⟩)) x s Q K G := by
  refine edit_spec hs hd (step_syncData hd) (fun n => rfl) (fun n => ite_self s) hQ hold (fun n => ?_) hG
  have hof : sel.of ⟨d.live, d.live⟩ = d.live := by cases sel <;> rfl
  rw [hof]; exact hnew n

end Calls

/-! ## Appending -/

/-- The log's file after an append, synced or not. -/
def loggedData (d : FileData) (bytes : Bytes) (synced : Bool) : FileData :=
  ⟨d.live ++ bytes, if synced then d.live ++ bytes else d.durable⟩

/-- The writer after an append. -/
def WalWriter.appended (w : WalWriter) (bytes : Bytes) (next : UInt64 → UInt64) (synced : Bool) : WalWriter :=
  { w with bytes := w.bytes + bytes.length, nextSequence := next w.nextSequence, unsynced := !synced }

/-- **Appending bytes to the log**, and syncing it when the durability asks for it. -/
theorem appendBytes_spec {sel : Sel} {w : WalWriter} {s : MemoryStorage} {d : FileData} {bytes : Bytes}
    {next : UInt64 → UInt64} {r : UInt64} {synced : Bool} {K : Call → Nat → Image → Prop} {G : Call → WalWriter → Image → Prop}
    {Q : UInt64 → WalWriter → MemoryStorage → Prop} (hs : Shape s) (hfile : w.file = ⟨w.path, true⟩)
    (hd : s.get w.path = some (.file d)) (hlen : w.bytes = d.live.length)
    (hQ : Q r (w.appended bytes next synced) (s.put w.path (.file (loggedData d bytes synced))))
    (hold : ∀ c n, K c n (s.image sel))
    (hnew : ∀ c n, K c n (Function.update (s.image sel) w.path (some (d.live ++ bytes))))
    (htorn : sel = .live → ∀ c n k, c.Tears n → K c n (Function.update (s.image sel) w.path (some (d.live ++ bytes.take k))))
    (hG : ∀ c x img, G c x img) :
    Spec sel (WalWriter.finish bytes next r synced) w s Q K G := by
  have hp := hs.dirs _ d hd
  have hparent := hs.nested _ _ hd
  -- an unsynced append is nothing to the durable image, all of it to the live one
  have hshape : ∀ d', Shape (s.put w.path (.file d')) := fun d' => hs.put_file hp hparent d'
  have happended : ∀ c n (bs : Bytes), (bs = bytes ∨ bs = [] ∨ (c.Tears n ∧ ∃ k, bs = bytes.take k)) →
      K c n ((s.put w.path (.file ⟨d.live ++ bs, d.durable⟩)).image sel) := fun c n bs hbs => by
    rw [MemoryStorage.image_put_file]
    cases hsel : sel with
    | durable =>
      show K c n (Function.update (s.image .durable) w.path (some d.durable))
      rw [Function.update_eq_self_iff.mpr (MemoryStorage.image_file hd .durable).symm, ← hsel]
      exact hold c n
    | live =>
      show K c n (Function.update (s.image .live) w.path (some (d.live ++ bs)))
      rw [← hsel]
      rcases hbs with rfl | rfl | ⟨ht, k, rfl⟩
      · exact hnew c n
      · rw [List.append_nil]
        have hself : Function.update (s.image sel) w.path (some d.live) = s.image sel := by
          rw [hsel]; exact Function.update_eq_self_iff.mpr (MemoryStorage.image_file hd .live).symm
        rw [hself]; exact hold c n
      · exact htorn hsel c n k ht
  have hstep : ∀ bs : Bytes, device.step (.append w.file bs) s =
      (.ok d.live.length, s.put w.path (.file ⟨d.live ++ bs, d.durable⟩)) := fun bs => by
    rw [hfile]; exact step_append hd bs
  have hpart : ∀ n, (MemoryStorage.append s w.file (bytes.take n)).2 =
      s.put w.path (.file ⟨d.live ++ bytes.take n, d.durable⟩) := fun n => congrArg Prod.snd (hstep (bytes.take n))
  unfold WalWriter.finish WalWriter.write
  refine Triple.bind ?_
  refine Triple.bind (Triple.get ?_)
  refine Triple.bind (Triple.call (hstep bytes) ?_ (fun n => ?_) (fun n => ?_))
  rotate_left
  · show Shape (MemoryStorage.append s w.file (bytes.take n)).2 ∧ K _ _ ((MemoryStorage.append s w.file (bytes.take n)).2.image sel)
    rw [hpart]
    refine ⟨hshape _, happended _ _ _ ?_⟩
    by_cases h0 : n = 0
    · subst h0; exact .inr (.inl rfl)
    · by_cases hn : n < bytes.length
      · exact .inr (.inr ⟨⟨h0, hn⟩, n, rfl⟩)
      · exact .inl (List.take_of_length_le (by omega))
  · show Shape (MemoryStorage.append s w.file (bytes.take n)).2 ∧ _
    rw [hpart]; exact ⟨hshape _, hG _ _ _⟩
  rw [if_neg (not_not.mpr hlen.symm)]
  refine Triple.modify (Triple.bind (Triple.modify ?_))
  cases hsync : synced with
  | false =>
    rw [hsync] at hQ
    exact Triple.pure hQ
  | true =>
    rw [hsync] at hQ
    have hput := MemoryStorage.get_put_self s w.path (.file ⟨d.live ++ bytes, d.durable⟩)
    rw [if_pos rfl]
    unfold WalWriter.sync
    refine Triple.bind (Triple.bind (Triple.get ?_))
    show Spec sel (do
      call (.syncData w.file)
      Proc.modify (fun w => { w with unsynced := false }) : Action WalWriter Unit) _ _ _ _ _
    have hcall : (call (.syncData w.file) : Action WalWriter Unit) = call (.syncData ⟨w.path, true⟩) := by rw [hfile]
    rw [hcall]
    refine Triple.bind (syncData_spec (hshape _) hput ?_ (fun n => happended _ _ _ (.inl rfl)) (fun n => ?_) (hG _ _ _))
    · rw [MemoryStorage.put_put]
      exact Triple.modify (Triple.pure hQ)
    · rw [MemoryStorage.image_put_file, Function.update_idem]; exact hnew _ _

/-! ## Opening -/

/-- **Opening a log that is there.** -/
theorem WalWriter.open_spec {S : Type} {sel : Sel} {x : S} {s : MemoryStorage} {path : DbPath} {d : FileData}
    {first : UInt64} {mode : Durability} {K : Call → Nat → Image → Prop} {G : Call → S → Image → Prop}
    {Q : WalWriter → S → MemoryStorage → Prop} (hs : Shape s) (hd : s.get path = some (.file d))
    (hQ : Q ⟨⟨path, true⟩, path, first, 1, d.live.length, mode, false⟩ x s) (hK : ∀ c n, K c n (s.image sel))
    (hG : ∀ c, c = .openFile path .create ∨ c = .len ⟨path, true⟩ → G c x (s.image .live)) :
    Spec sel (WalWriter.open path first mode) x s Q K G := by
  refine Triple.bind (openFile_spec hs hd ?_ (hK _) (hG _ (.inl rfl)))
  refine Triple.bind (len_spec hs hd ?_ (hK _) (hG _ (.inr rfl)))
  exact Triple.pure hQ

end IshaVectorDb.Engine
