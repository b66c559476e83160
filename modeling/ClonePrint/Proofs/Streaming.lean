import ClonePrint.Proofs.Reassembly

/-!
# Split files that arrive while a pool is running

The pieces of a file may also arrive one by one while the pool is running. The file
is put together again as long as nothing of it is flushed before its last piece has
arrived. A pool that finds nothing to do between two pieces flushes what it holds
of the file, although its input is still open, and then functions that reach from
one piece into the next are lost.
-/
namespace ClonePrint

namespace Pool

theorem timely_of_chunksFrom {j : Journal} (h : j.chunksFrom .leftover = []) :
    Timely j.entered := by
  refine List.pairwise_of_forall_mem_list fun a ha b _ hleft => ?_
  have hmem : a.2 ∈ j.chunksFrom .leftover :=
    List.mem_map_of_mem (List.mem_filter.2 ⟨ha, by simpa using hleft⟩)
  rw [h] at hmem
  cases hmem

/-- Files whose pieces are submitted to a running pool are put together again, without a
warning and without a leftover, if and only if no chunk of a file is flushed before a
later piece of the file arrives. -/
theorem streamed_iff_timely {p : TokenTree} {batch workers : Nat} {memory : Memory}
    {counter : JobCounter} {files : List SplitFile} {moves : List Move} {q : Pool Memory}
    {found : List Fingerprint} {records : SplitFile → List Fingerprint}
    (hnames : (files.map SplitFile.name).Nodup)
    (hparse : ∀ f ∈ files,
      (p.toParser.parseFile f.name f.text false memory).value = .ok (records f))
    (hitems : ∀ f ∈ files, ∀ i ∈ f.items, f.boundary p i)
    (hseamless : ∀ f ∈ files, f.pieces = [Chunk.whole f.name f.text] ∨ Seamless p f)
    (hsubmitted : (Request.accepted (asks moves)).Perm (files.flatMap SplitFile.pieces))
    (hrun : (prepared workers memory [] false counter).start.replay? ⟨p.toParser, batch⟩ moves =
      some q)
    (hok : q.outcome? = some (.ok found)) :
    Timely ((prepared workers memory [] false counter).journal ⟨p.toParser, batch⟩ moves).entered ↔
      Reassembled (files.flatMap records) ((prepared workers memory [] false counter).journal
        ⟨p.toParser, batch⟩ moves) q.notices found := by
  obtain ⟨hhalt, hdone, rfl⟩ := outcome_eq_ok_iff.1 hok
  constructor
  · intro htimely
    exact reassembled_of_replay hrun hhalt (concluded_of_replay hnames hsubmitted hrun hhalt hdone)
      htimely hnames (fun f hf => parseStrict_of_parseFile (hparse f hf)) hitems hseamless
  · intro h
    exact timely_of_chunksFrom h.leftover

/-- A front end that knows one function, `ab`, and takes everything else for a fragment. -/
def wholeOrFragment : TokenTree where
  grammar := numbered
  frontEnd
    | ['a', 'b'] => soundNode 0 [.node { (soundNode 0 []).label with id := 1, stop := 2 } []]
    | _ => soundNode 0 [soundNode 0 []]

/-- A function of two bytes, cut in the middle. -/
def twoBytes : SplitFile where
  name := "f"
  text := ['a', 'b']
  items := []
  pieces := Splitter.cutAt "f" ['a', 'b'] [1]
  cut := .cutAt [1]

theorem eq_nil_or_eq_of_boundary {u v : Text} (hwhole : u ++ v = ['a', 'b'])
    (h : twoBytes.boundary wholeOrFragment (Text.size u)) : u = [] ∨ u = ['a', 'b'] := by
  have hsize : Text.size u = 0 ∨ Text.size u = 2 := by
    rcases h with hzero | hstop | ⟨items, hitems, hi⟩
    · exact .inl hzero
    · exact .inr hstop
    · obtain rfl : [0] = items := Option.some.inj hitems
      exact .inl (List.mem_singleton.1 hi)
  rcases hsize with hzero | hstop
  · exact .inl (Text.append_inj (c := []) (d := ['a', 'b']) hwhole hzero).1
  · exact .inr (Text.append_inj (c := ['a', 'b']) (d := [])
      (hwhole.trans (List.append_nil _).symm) hstop).1

/-- No slice but the whole function starts and ends at a boundary. -/
theorem seamless_twoBytes : Seamless wholeOrFragment twoBytes where
  concat x y z w hwhole hx hy hz := by
    have hwhole : x ++ (y ++ (z ++ w)) = ['a', 'b'] := hwhole
    have hfront := eq_nil_or_eq_of_boundary hwhole hx
    have hmiddle := eq_nil_or_eq_of_boundary (by rwa [List.append_assoc]) hy
    have hback := eq_nil_or_eq_of_boundary (v := w) (by simpa using hwhole) hz
    rcases hfront with rfl | rfl
    · rcases hmiddle with rfl | rfl
      · rcases hback with rfl | rfl
        · exact ⟨[], [], rfl, rfl, rfl⟩
        · exact ⟨[], _, rfl, rfl, rfl⟩
      · obtain rfl : z = [] := by simpa using hback
        exact ⟨_, [], rfl, rfl, rfl⟩
    · obtain rfl : y = [] := by simpa using hmiddle
      obtain rfl : z = [] := by simpa using hback
      exact ⟨[], [], rfl, rfl, rfl⟩
  hold x y w _ _ _ := by
    refine .inl ?_
    unfold wholeOrFragment
    dsimp only
    split <;> rfl

/-- With both pieces there before the worker has nothing to do, the function is found. -/
theorem streamed_two_bytes :
    let moves : List Move :=
      (twoBytes.pieces.map fun c => .ask (.submit c)) ++
        [.ask .close, .takeRequest, .takeRequest, .takeRequest, .work 0, .report 0, .takeReport,
          .work 0, .report 0, .takeReport, .report 0, .takeReport, .work 0, .report 0, .takeReport,
          .report 0, .takeReport, .work 0, .report 0, .takeReport, .work 0, .report 0, .takeReport]
    let p := prepared 1 {} [] false
    let crew : Crew Memory := ⟨wholeOrFragment.toParser, 0⟩
    let records := wholeOrFragment.recordsOf (Chunk.whole twoBytes.name twoBytes.text)
    Seamless wholeOrFragment twoBytes ∧
      ∃ q, p.start.replay? crew moves = some q ∧ q.outcome? = some (.ok records) ∧
        Reassembled records (p.journal crew moves) q.notices records := by
  intro moves p crew records
  -- A sort is not evaluated by the kernel, so the move that joins the pieces is made apart.
  let first : Chunk := ⟨"f", ['a'], 0, 0, 0, false, true, true⟩
  let second : Chunk := ⟨"f", ['b'], 1, 1, 0, true, false, true⟩
  let before := (p.start.replay? crew (moves.take 16)).get (by decide +kernel)
  have hbefore : p.start.replay? crew (moves.take 16) = some before := (Option.some_get _).symm
  have hgoing : before.isOver = false := by decide +kernel
  have hreports : before.reports = [(0, .said (.remainder second))] := by decide +kernel
  have hremainders : before.dispatcher.remainders = ⟨[("f", [first])]⟩ := by decide +kernel
  have hinsert : before.dispatcher.remainders.insert second =
      .ok ([⟨"f", ['a', 'b'], 0, 0, 0, false, false, true⟩], {}) := by
    rw [hremainders]
    exact (Remainders.insert_of_mergeSort_eq (List.mergeSort_of_pairwise (by decide))).trans rfl
  have hend : (p.start.replay? crew moves).map
      (fun q => (q.halt, q.dispatcher.phase, q.dispatcher.found)) =
        some (none, .done, records) := by
    refine (congrArg _ (replay?_of_insert hbefore hgoing hreports hinsert (moves.drop 17))).trans ?_
    decide +kernel
  have hkept : (p.journal crew moves).chunksFrom .leftover = [] := by
    refine (leftover_of_insert hbefore hgoing hreports hinsert (moves.drop 17)).trans ?_
    decide +kernel
  have hsubmitted : Request.accepted (asks moves) = [twoBytes].flatMap SplitFile.pieces := rfl
  obtain ⟨q, hq, hok⟩ := exists_outcome_eq_ok hend
  have h : Timely (p.journal crew moves).entered ↔
      Reassembled ([twoBytes].flatMap fun _ => records) (p.journal crew moves) q.notices records :=
    streamed_iff_timely (List.nodup_singleton _) (fun f hf => by
        obtain rfl := List.mem_singleton.1 hf
        rfl)
      (by simp [twoBytes]) (by simpa using .inr seamless_twoBytes) (.of_eq hsubmitted) hq hok
  exact ⟨seamless_twoBytes, q, hq, hok, by simpa using h.1 (timely_of_chunksFrom hkept)⟩

/-- When the worker has nothing to do between the two pieces, each of them is parsed as
it is, and the function is lost. -/
theorem lost_between_two_submissions :
    let turn : List Move := [.work 0, .report 0, .takeReport]
    let moves : List Move :=
      turn ++ (twoBytes.pieces.flatMap fun c => [.ask (.submit c), .takeRequest] ++ turn ++
        [.report 0, .takeReport] ++ turn ++ turn ++ turn) ++ [.ask .close, .takeRequest]
    let p := prepared 1 {} [] false
    let crew : Crew Memory := ⟨wholeOrFragment.toParser, 0⟩
    Seamless wholeOrFragment twoBytes ∧
      asks moves = twoBytes.pieces.map .submit ++ [.close] ∧
        ∃ record q, (wholeOrFragment.toParser.parseFile twoBytes.name twoBytes.text false {}).value =
            .ok [record] ∧
          p.start.replay? crew moves = some q ∧ q.outcome? = some (.ok []) := by
  intro turn moves p crew
  have hrun : (p.start.replay? crew moves).map
      (fun q => (q.halt, q.dispatcher.phase, q.dispatcher.found)) = some (none, .done, []) := by
    decide +kernel
  obtain ⟨q, hq, hok⟩ := exists_outcome_eq_ok hrun
  exact ⟨seamless_twoBytes, rfl, _, q, rfl, hq, hok⟩

end Pool

end ClonePrint
