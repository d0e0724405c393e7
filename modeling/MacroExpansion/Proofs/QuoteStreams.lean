import MacroExpansion.Call.Quote
import MacroExpansion.Tree.Build
import Mathlib.Data.List.DropRight

/-! # Streams of fragments

Quotes are values that may be copied at will, and every copy writes to the buffer of the quote it
was copied from. A *desk* holds the buffers made so far and the quotes at hand; a *use* makes a
buffer, makes or copies a quote, writes through a quote or takes what its buffer holds. Each buffer
then holds one stream: what was written since it was last taken, through any quote that descends from
it, in the order of the writes (`quotes_write_one_stream`).

The stream is read off the uses alone. `origins` follows every quote back to the buffer it was made
on, and `pending` keeps the writes after the last take. `Desk.Follows` relates the two to what the
desk holds, and `Desk.Follows.use` says that one use keeps the relation. -/

namespace MacroExpansion

/-- One use of quotes. Buffers and quotes are named by their position among those made so far. -/
inductive QuoteUse where
  /-- Makes an empty buffer. -/
  | newBuffer
  /-- Makes a quote on a buffer. -/
  | newQuote (site : Site) (buffer : Nat)
  /-- Copies a quote for another parameter. -/
  | clone (quote sequence : Nat)
  /-- Writes a fragment. -/
  | emit (quote : Nat) (fragment : Fragment)
  /-- Writes the value of the call. -/
  | result (quote : Nat) (expr : Expr)
  /-- Takes what the buffer of a quote holds. -/
  | take (quote : Nat)

namespace QuoteUse

/-- The quote that is written to or taken from. -/
def through? : QuoteUse → Option Nat
  | emit quote _ | result quote _ | take quote => some quote
  | newBuffer | newQuote _ _ | clone _ _ => none

/-- What is written, if anything. -/
def written? : QuoteUse → Option Fragment
  | emit _ fragment => some fragment
  | result _ expr => some (.expr expr)
  | newBuffer | newQuote _ _ | clone _ _ | take _ => none

/-- A use that takes. -/
def takes : QuoteUse → Bool
  | take _ => true
  | newBuffer | newQuote _ _ | clone _ _ | emit _ _ | result _ _ => false

/-- The buffers that quotes were made on, after one more use. -/
def traceBack (origins : List Nat) : QuoteUse → List Nat
  | newQuote _ buffer => origins ++ [buffer]
  | clone quote _ => origins ++ (origins[quote]?).toList
  | newBuffer | emit _ _ | result _ _ | take _ => origins

/-- The buffer that each quote descends from, by the position of the quote. -/
def origins (uses : List QuoteUse) : List Nat :=
  uses.foldl traceBack []

/-- A use that goes through a quote descending from a buffer. -/
def reaches (origins : List Nat) (buffer : Nat) (use : QuoteUse) : Bool :=
  (use.through?.bind (origins[·]?)) == some buffer

/-- What a use adds to the stream of a buffer. -/
def addsTo? (origins : List Nat) (buffer : Nat) (use : QuoteUse) : Option Fragment :=
  if use.reaches origins buffer then use.written? else none

/-- What was written to a buffer since it was last taken, in the order of the writes, for quotes
that descend from the given buffers. -/
def pendingFrom (origins : List Nat) (uses : List QuoteUse) (buffer : Nat) : List Fragment :=
  (uses.rtakeWhile fun use => !(use.takes && use.reaches origins buffer)).filterMap
    (addsTo? origins buffer)

/-- The stream of a buffer: what was written since it was last taken, in the order of the writes. -/
def pending (uses : List QuoteUse) (buffer : Nat) : List Fragment :=
  pendingFrom (origins uses) uses buffer

/-- A use leaves alone the buffers that it does not reach. -/
theorem addsTo?_of_not_reaches {origins : List Nat} {buffer : Nat} {use : QuoteUse}
    (h : use.reaches origins buffer = false) : use.addsTo? origins buffer = none := by
  simp [addsTo?, h]

/-- Origins are followed use by use. -/
theorem origins_concat (uses : List QuoteUse) (use : QuoteUse) :
    origins (uses ++ [use]) = traceBack (origins uses) use := by
  simp [origins]

/-- A take empties the stream, and a write extends it. -/
theorem pendingFrom_concat (origins : List Nat) (uses : List QuoteUse) (use : QuoteUse)
    (buffer : Nat) :
    pendingFrom origins (uses ++ [use]) buffer =
      if use.takes && use.reaches origins buffer then []
      else pendingFrom origins uses buffer ++ (use.addsTo? origins buffer).toList := by
  unfold pendingFrom
  rw [List.rtakeWhile_concat]
  cases use.takes && use.reaches origins buffer with
  | true => rfl
  | false =>
    have hlast : List.filterMap (addsTo? origins buffer) [use] =
        (use.addsTo? origins buffer).toList := by
      cases h : use.addsTo? origins buffer <;> simp [h]
    simp [List.filterMap_append, hlast]

/-- The stream depends on the quotes that were gone through only. -/
theorem pendingFrom_congr {origins others : List Nat} {uses : List QuoteUse} {buffer : Nat}
    (h : ∀ use ∈ uses, use.reaches origins buffer = use.reaches others buffer) :
    pendingFrom origins uses buffer = pendingFrom others uses buffer := by
  induction uses using List.reverseRecOn with
  | nil => rfl
  | append_singleton uses use ih =>
    have hlast : use.reaches origins buffer = use.reaches others buffer := h use (by simp)
    have hrest := ih fun earlier hmem => h earlier (by simp [hmem])
    rw [pendingFrom_concat, pendingFrom_concat, hrest, hlast]
    simp only [addsTo?, hlast]

/-- Quotes made later do not change which buffer an earlier use reached. -/
theorem reaches_append {origins : List Nat} (more : List Nat) {use : QuoteUse} {buffer : Nat}
    (h : ∀ quote, use.through? = some quote → quote < origins.length) :
    use.reaches (origins ++ more) buffer = use.reaches origins buffer := by
  unfold reaches
  cases hthrough : use.through? with
  | none => rfl
  | some quote =>
    have hbound := h quote hthrough
    simp [List.getElem?_append_left hbound]

/-- Quotes are only ever added. -/
theorem traceBack_eq_append (origins : List Nat) (use : QuoteUse) :
    ∃ more, traceBack origins use = origins ++ more := by
  cases use with
  | newQuote site buffer => exact ⟨[buffer], rfl⟩
  | clone quote sequence => exact ⟨(origins[quote]?).toList, rfl⟩
  | _ => exact ⟨[], by simp [traceBack]⟩

/-- One more use that goes through a quote at hand empties the stream or extends it. -/
theorem pending_concat {uses : List QuoteUse} {use : QuoteUse} (buffer : Nat)
    (hearlier : ∀ earlier ∈ uses, ∀ quote, earlier.through? = some quote →
      quote < (origins uses).length)
    (hlast : ∀ quote, use.through? = some quote → quote < (origins uses).length) :
    pending (uses ++ [use]) buffer =
      if use.takes && use.reaches (origins uses) buffer then []
      else pending uses buffer ++ (use.addsTo? (origins uses) buffer).toList := by
  obtain ⟨more, hmore⟩ := traceBack_eq_append (origins uses) use
  have hsame : use.reaches (origins uses ++ more) buffer = use.reaches (origins uses) buffer :=
    reaches_append more hlast
  have hrest : pendingFrom (origins uses ++ more) uses buffer = pending uses buffer :=
    pendingFrom_congr fun earlier hmem => reaches_append more (hearlier earlier hmem)
  rw [pending, origins_concat, hmore, pendingFrom_concat, hrest, hsame]
  simp only [addsTo?, hsame]

end QuoteUse

/-- The buffers made so far and the quotes at hand. -/
structure Desk where
  /-- What the buffers hold. -/
  store : Buffers := {}
  /-- The buffers, oldest first. -/
  buffers : List BufferId := []
  /-- The quotes, oldest first. -/
  quotes : List Quote := []

namespace Desk

/-- One use of the quotes at hand, with what it takes. It fails when it names nothing. -/
def use (desk : Desk) : QuoteUse → Option (Desk × List Fragment)
  | .newBuffer =>
    let (buffer, store) := desk.store.create
    some ({ desk with store, buffers := desk.buffers ++ [buffer] }, [])
  | .newQuote site buffer => do
    let buffer ← desk.buffers[buffer]?
    return ({ desk with quotes := desk.quotes ++ [.of site buffer] }, [])
  | .clone quote sequence => do
    let quote ← desk.quotes[quote]?
    return ({ desk with quotes := desk.quotes ++ [quote.withSequence sequence] }, [])
  | .emit quote fragment => do
    let quote ← desk.quotes[quote]?
    return ({ desk with store := quote.emit fragment desk.store }, [])
  | .result quote expr => do
    let quote ← desk.quotes[quote]?
    return ({ desk with store := quote.result expr desk.store }, [])
  | .take quote => do
    let quote ← desk.quotes[quote]?
    let (fragments, store) := desk.store.take quote.buffer
    return ({ desk with store }, fragments)

/-- Several uses, one after the other. -/
def useAll (desk : Desk) : List QuoteUse → Option Desk
  | [] => some desk
  | first :: rest => (desk.use first).bind (·.1.useAll rest)

/-- The desk that a list of uses leads to: every quote stands on the buffer that the uses trace it
back to, and every buffer holds its stream. -/
structure Follows (desk : Desk) (uses : List QuoteUse) : Prop where
  /-- Buffers are named in the order they were made. -/
  named : desk.buffers = (List.range desk.store.contents.length).map BufferId.mk
  /-- Quotes write to the buffer they descend from. -/
  traced : QuoteUse.origins uses = desk.quotes.map (·.buffer.index)
  /-- Quotes write to buffers that were made. -/
  placed : ∀ quote ∈ desk.quotes, quote.buffer.index < desk.store.contents.length
  /-- Uses went through quotes that were at hand. -/
  through : ∀ use ∈ uses, ∀ quote, use.through? = some quote → quote < desk.quotes.length
  /-- Every buffer holds its stream. -/
  holds : ∀ buffer, desk.store.fragments ⟨buffer⟩ = QuoteUse.pending uses buffer

/-- Nothing was made and nothing was written on an empty desk. -/
theorem follows_nil : Follows {} [] where
  named := rfl
  traced := rfl
  placed := by simp
  through := by simp
  holds _ := rfl

namespace Follows

variable {desk : Desk} {uses : List QuoteUse}

/-- The buffer that a quote descends from. -/
theorem origin (h : desk.Follows uses) {position : Nat} {quote : Quote}
    (hquote : desk.quotes[position]? = some quote) :
    (QuoteUse.origins uses)[position]? = some quote.buffer.index := by
  simp [h.traced, hquote]

/-- A use that goes through a quote reaches the buffer of the quote and no other. -/
theorem reaches_eq (h : desk.Follows uses) {position : Nat} {quote : Quote}
    (hquote : desk.quotes[position]? = some quote) {use : QuoteUse}
    (hthrough : use.through? = some position) (buffer : Nat) :
    use.reaches (QuoteUse.origins uses) buffer = decide (quote.buffer = ⟨buffer⟩) := by
  have horigin := h.origin hquote
  obtain ⟨sequence, site, ⟨index⟩⟩ := quote
  by_cases hindex : index = buffer <;> simp_all [QuoteUse.reaches]

/-- A use that goes through no quote changes no stream. -/
theorem pending_of_through_none (h : desk.Follows uses) {use : QuoteUse}
    (hthrough : use.through? = none) (buffer : Nat) :
    QuoteUse.pending (uses ++ [use]) buffer = QuoteUse.pending uses buffer := by
  have hearlier : ∀ earlier ∈ uses, ∀ quote, earlier.through? = some quote →
      quote < (QuoteUse.origins uses).length := by simpa [h.traced] using h.through
  have hfar : use.reaches (QuoteUse.origins uses) buffer = false := by
    simp [QuoteUse.reaches, hthrough]
  rw [QuoteUse.pending_concat buffer hearlier (by simp [hthrough]), hfar,
    QuoteUse.addsTo?_of_not_reaches hfar]
  simp

/-- A use that goes through a quote changes the stream of its buffer. -/
theorem pending_of_through (h : desk.Follows uses) {position : Nat} {quote : Quote}
    (hquote : desk.quotes[position]? = some quote) {use : QuoteUse}
    (hthrough : use.through? = some position) (buffer : Nat) :
    QuoteUse.pending (uses ++ [use]) buffer =
      if quote.buffer = ⟨buffer⟩ then
        if use.takes then [] else QuoteUse.pending uses buffer ++ use.written?.toList
      else QuoteUse.pending uses buffer := by
  have hbound : position < desk.quotes.length := (List.getElem?_eq_some_iff.mp hquote).1
  have hearlier : ∀ earlier ∈ uses, ∀ quote, earlier.through? = some quote →
      quote < (QuoteUse.origins uses).length := by simpa [h.traced] using h.through
  have hlast : ∀ quote, use.through? = some quote → quote < (QuoteUse.origins uses).length := by
    simpa [h.traced, hthrough] using hbound
  rw [QuoteUse.pending_concat buffer hearlier hlast, QuoteUse.addsTo?,
    h.reaches_eq hquote hthrough buffer]
  by_cases hsame : quote.buffer = ⟨buffer⟩ <;> simp [hsame]

/-- A buffer that is put on the desk is empty, and the others hold what they held. -/
theorem addBuffer (h : desk.Follows uses) :
    Follows { desk with store := desk.store.create.2, buffers := desk.buffers ++ [desk.store.create.1] }
      (uses ++ [.newBuffer]) where
  named := by simp [Buffers.create, h.named, List.range_succ]
  traced := by simpa [QuoteUse.origins_concat, QuoteUse.traceBack] using h.traced
  placed := by
    intro quote hquote
    have := h.placed quote hquote
    simp only [Buffers.create, List.length_append, List.length_singleton]
    omega
  through := by
    intro earlier hmem
    rcases List.mem_append.mp hmem with hold | hnew
    · exact h.through earlier hold
    · rw [List.mem_singleton.mp hnew]
      simp [QuoteUse.through?]
  holds buffer := by
    rw [h.pending_of_through_none rfl, ← h.holds buffer]
    exact desk.store.fragments_create ⟨buffer⟩

/-- A quote that is put on the desk changes nothing else. -/
theorem addQuote (h : desk.Follows uses) {use : QuoteUse} {quote : Quote}
    (hthrough : use.through? = none)
    (htraced : use.traceBack (QuoteUse.origins uses) =
      QuoteUse.origins uses ++ [quote.buffer.index])
    (hplaced : quote.buffer.index < desk.store.contents.length) :
    Follows { desk with quotes := desk.quotes ++ [quote] } (uses ++ [use]) where
  named := h.named
  traced := by
    rw [QuoteUse.origins_concat, htraced, h.traced, List.map_append]
    rfl
  placed := by
    intro other hother
    rcases List.mem_append.mp hother with hold | hnew
    · exact h.placed other hold
    · rw [List.mem_singleton.mp hnew]
      exact hplaced
  through := by
    intro earlier hmem position hposition
    rcases List.mem_append.mp hmem with hold | hnew
    · have := h.through earlier hold position hposition
      simp only [List.length_append, List.length_singleton]
      omega
    · rw [List.mem_singleton.mp hnew, hthrough] at hposition
      exact absurd hposition (by simp)
  holds buffer := by rw [h.pending_of_through_none hthrough]; exact h.holds buffer

/-- Writing or taking through a quote changes what its buffer holds and nothing else. -/
theorem goThrough (h : desk.Follows uses) {position : Nat} {quote : Quote}
    (hquote : desk.quotes[position]? = some quote) {use : QuoteUse}
    (hthrough : use.through? = some position) {store : Buffers}
    (hlength : store.contents.length = desk.store.contents.length)
    (htarget : store.fragments quote.buffer =
      if use.takes then [] else desk.store.fragments quote.buffer ++ use.written?.toList)
    (hothers : ∀ other, quote.buffer ≠ other → store.fragments other = desk.store.fragments other) :
    Follows { desk with store } (uses ++ [use]) where
  named := by simpa [hlength] using h.named
  traced := by
    cases use <;> simp_all [QuoteUse.origins_concat, QuoteUse.traceBack, QuoteUse.through?, h.traced]
  placed := by simpa [hlength] using h.placed
  through := by
    intro earlier hmem other hother
    rcases List.mem_append.mp hmem with hold | hnew
    · exact h.through earlier hold other hother
    · rw [List.mem_singleton.mp hnew, hthrough] at hother
      exact Option.some.inj hother ▸ (List.getElem?_eq_some_iff.mp hquote).1
  holds buffer := by
    rw [h.pending_of_through hquote hthrough buffer]
    by_cases hsame : quote.buffer = ⟨buffer⟩
    · rw [if_pos hsame, ← h.holds buffer, ← hsame]
      exact htarget
    · rw [if_neg hsame, ← h.holds buffer]
      exact hothers ⟨buffer⟩ hsame

/-- Writing a fragment through a quote extends the stream of its buffer. -/
theorem push (h : desk.Follows uses) {position : Nat} {quote : Quote}
    (hquote : desk.quotes[position]? = some quote) {use : QuoteUse} {fragment : Fragment}
    (hthrough : use.through? = some position) (htakes : use.takes = false)
    (hwritten : use.written? = some fragment) :
    Follows { desk with store := desk.store.push quote.buffer fragment } (uses ++ [use]) := by
  have hplaced := h.placed quote (List.mem_of_getElem? hquote)
  refine h.goThrough hquote hthrough ?length ?target ?others
  case length => simp [Buffers.push]
  case target =>
    rw [desk.store.fragments_push_self quote.buffer fragment hplaced, htakes, hwritten]
    rfl
  case others => exact fun other hne => desk.store.fragments_push_of_ne fragment hne

/-- One use keeps the relation between the uses and the desk. -/
theorem use (h : desk.Follows uses) {next : QuoteUse} {after : Desk} {taken : List Fragment}
    (hnext : desk.use next = some (after, taken)) : after.Follows (uses ++ [next]) := by
  cases next with
  | newBuffer =>
    obtain ⟨rfl, -⟩ : _ = after ∧ _ := by simpa [Desk.use] using hnext
    exact h.addBuffer
  | newQuote site buffer =>
    obtain ⟨id, hid, rfl, -⟩ : ∃ id, desk.buffers[buffer]? = some id ∧ _ = after ∧ _ := by
      simpa [Desk.use, Option.bind_eq_some_iff] using hnext
    obtain ⟨hbound, rfl⟩ : buffer < desk.store.contents.length ∧ BufferId.mk buffer = id := by
      simpa [h.named, List.getElem?_range, List.getElem?_eq_some_iff] using hid
    exact h.addQuote rfl rfl hbound
  | clone position sequence =>
    obtain ⟨quote, hquote, rfl, -⟩ :
        ∃ quote, desk.quotes[position]? = some quote ∧ _ = after ∧ _ := by
      simpa [Desk.use, Option.bind_eq_some_iff] using hnext
    -- a clone descends from the buffer of the quote that it was made of
    have htraced : (QuoteUse.clone position sequence).traceBack (QuoteUse.origins uses) =
        QuoteUse.origins uses ++ [(quote.withSequence sequence).buffer.index] := by
      simp [QuoteUse.traceBack, h.origin hquote, Quote.withSequence]
    exact h.addQuote rfl htraced (h.placed quote (List.mem_of_getElem? hquote))
  | emit position fragment =>
    obtain ⟨quote, hquote, rfl, -⟩ :
        ∃ quote, desk.quotes[position]? = some quote ∧ _ = after ∧ _ := by
      simpa [Desk.use, Option.bind_eq_some_iff] using hnext
    exact h.push hquote rfl rfl rfl
  | result position expr =>
    obtain ⟨quote, hquote, rfl, -⟩ :
        ∃ quote, desk.quotes[position]? = some quote ∧ _ = after ∧ _ := by
      simpa [Desk.use, Option.bind_eq_some_iff] using hnext
    exact h.push hquote rfl rfl rfl
  | take position =>
    obtain ⟨quote, hquote, rfl, -⟩ :
        ∃ quote, desk.quotes[position]? = some quote ∧ _ = after ∧ _ := by
      simpa [Desk.use, Option.bind_eq_some_iff] using hnext
    refine h.goThrough hquote rfl ?length ?target ?others
    case length => simp [Buffers.take]
    case target => exact desk.store.fragments_take_self quote.buffer
    case others => exact fun other hne => desk.store.fragments_take_of_ne hne

/-- Any number of uses keeps the relation. -/
theorem useAll (h : desk.Follows uses) {more : List QuoteUse} {after : Desk}
    (hmore : desk.useAll more = some after) : after.Follows (uses ++ more) := by
  induction more generalizing desk uses with
  | nil =>
    obtain rfl : desk = after := Option.some.inj hmore
    simpa using h
  | cons next rest ih =>
    obtain ⟨⟨between, taken⟩, hnext, hrest⟩ := Option.bind_eq_some_iff.mp hmore
    simpa using ih (h.use hnext) hrest

/-- A take hands out the stream of the buffer that the quote descends from. -/
theorem use_take (h : desk.Follows uses) {position : Nat} {quote : Quote}
    (hquote : desk.quotes[position]? = some quote) :
    desk.use (.take position) = some ({ desk with store := (desk.store.take quote.buffer).2 },
      QuoteUse.pending uses quote.buffer.index) := by
  have hstream : desk.store.fragments quote.buffer = QuoteUse.pending uses quote.buffer.index :=
    h.holds quote.buffer.index
  simp [Desk.use, hquote, Buffers.take, hstream]

/-- Quotes share a buffer when they descend from the same one. -/
theorem sharesWith_iff (h : desk.Follows uses) {position other : Nat} {quote sharing : Quote}
    (hquote : desk.quotes[position]? = some quote) (hsharing : desk.quotes[other]? = some sharing) :
    quote.sharesWith sharing = true ↔
      (QuoteUse.origins uses)[position]? = (QuoteUse.origins uses)[other]? := by
  rw [h.origin hquote, h.origin hsharing]
  obtain ⟨_, _, ⟨first⟩⟩ := quote
  obtain ⟨_, _, ⟨second⟩⟩ := sharing
  simp [Quote.sharesWith]

/-- A use leaves the buffers that it does not reach as they are. -/
theorem fragments_of_not_reaches (h : desk.Follows uses) {next : QuoteUse} {after : Desk}
    {taken : List Fragment} (hnext : desk.use next = some (after, taken)) {buffer : Nat}
    (hfar : next.reaches (QuoteUse.origins uses) buffer = false) :
    after.store.fragments ⟨buffer⟩ = desk.store.fragments ⟨buffer⟩ := by
  rw [(h.use hnext).holds buffer, h.holds buffer]
  cases hthrough : next.through? with
  | none => exact h.pending_of_through_none hthrough buffer
  | some position =>
    obtain ⟨quote, hquote⟩ : ∃ quote, desk.quotes[position]? = some quote := by
      cases next <;> simp_all [Desk.use, QuoteUse.through?, Option.bind_eq_some_iff] <;> grind
    have hne : quote.buffer ≠ ⟨buffer⟩ := by
      simpa [h.reaches_eq hquote hthrough buffer] using hfar
    rw [h.pending_of_through hquote hthrough buffer, if_neg hne]

end Follows

/-- What is at hand stays at hand: the buffers, and the quotes with their site and their sequence
number. -/
theorem prefix_of_use {desk after : Desk} {use : QuoteUse} {taken : List Fragment}
    (huse : desk.use use = some (after, taken)) :
    desk.buffers <+: after.buffers ∧ desk.quotes <+: after.quotes := by
  cases use <;> simp [Desk.use, Option.bind_eq_some_iff] at huse <;> grind

end Desk

/-- Quotes write one ordered stream for each buffer. After any uses of an empty desk, and for every
quote at hand, a take hands out what was written since the last take of the buffer that the quote
descends from, and leaves that buffer empty; every quote that shares the buffer counts just that.
Quotes share a buffer when they descend from the same one. A further use changes no buffer but the
one it reaches and leaves all buffers and quotes at hand. -/
theorem quotes_write_one_stream {uses : List QuoteUse} {desk : Desk}
    (h : Desk.useAll {} uses = some desk) {position : Nat} {quote : Quote}
    (hquote : desk.quotes[position]? = some quote) :
    ∃ origin, (QuoteUse.origins uses)[position]? = some origin ∧
      (∃ after, desk.use (.take position) = some (after, QuoteUse.pending uses origin) ∧
        after.quotes = desk.quotes ∧
        ∀ sharing ∈ desk.quotes, quote.sharesWith sharing = true →
          after.store.fragments sharing.buffer = []) ∧
      (∀ sharing ∈ desk.quotes, quote.sharesWith sharing = true →
        sharing.emitted desk.store = (QuoteUse.pending uses origin).length ∧
          desk.store.size sharing.buffer = (QuoteUse.pending uses origin).length) ∧
      (∀ (other : Nat) (sharing : Quote), desk.quotes[other]? = some sharing →
        (quote.sharesWith sharing = true ↔ (QuoteUse.origins uses)[other]? = some origin)) ∧
      ∀ (next : QuoteUse) (after : Desk) (taken : List Fragment),
        desk.use next = some (after, taken) →
        desk.buffers <+: after.buffers ∧ desk.quotes <+: after.quotes ∧
          ∀ buffer, next.reaches (QuoteUse.origins uses) buffer = false →
            after.store.fragments ⟨buffer⟩ = desk.store.fragments ⟨buffer⟩ := by
  have hfollows : desk.Follows uses := by simpa using Desk.follows_nil.useAll h
  have horigin := hfollows.origin hquote
  have hsame : ∀ sharing : Quote, quote.sharesWith sharing = true →
      sharing.buffer = quote.buffer := fun sharing hshares => (of_decide_eq_true hshares).symm
  refine ⟨quote.buffer.index, horigin, ?take, ?count, ?shares, ?apart⟩
  case take =>
    refine ⟨_, hfollows.use_take hquote, rfl, fun sharing _ hshares => ?_⟩
    rw [hsame sharing hshares]
    exact desk.store.fragments_take_self quote.buffer
  case count =>
    intro sharing _ hshares
    have hsize : desk.store.size sharing.buffer =
        (QuoteUse.pending uses quote.buffer.index).length := by
      rw [hsame sharing hshares, Buffers.size_eq_length, ← hfollows.holds quote.buffer.index]
    exact ⟨hsize, hsize⟩
  case shares =>
    intro other sharing hsharing
    rw [hfollows.sharesWith_iff hquote hsharing, horigin, eq_comm]
  case apart =>
    intro next after taken hnext
    obtain ⟨hbuffers, hquotes⟩ := Desk.prefix_of_use hnext
    exact ⟨hbuffers, hquotes, fun buffer hfar => hfollows.fragments_of_not_reaches hnext hfar⟩

/-- The call `M();` in a script of its own. -/
def loneSite : Site where
  file := "main.cs"
  call := .plain "M" []
  statement := .evaluate (.callOf "M" [])
  enclosing := .topLevel
  function := none
  block := .of [.evaluate (.callOf "M" [])]
  index := 0

/-- Two copies of one quote write to one buffer, around a take and a write to another buffer. -/
def crossedWrites : List QuoteUse :=
  [.newBuffer, .newBuffer, .newQuote loneSite 0, .newQuote loneSite 1, .clone 0 2, .clone 2 1,
    .emit 3 (.expr (.ofName "a")), .emit 1 (.expr (.ofName "b")), .take 0,
    .result 3 (.ofName "c"), .emit 2 (.expr (.ofName "d"))]

/-- The first quote hands out what its two copies wrote after the take, in the order of the calls. -/
theorem crossedWrites_pending :
    ∃ desk quote after, Desk.useAll {} crossedWrites = some desk ∧ desk.quotes[0]? = some quote ∧
      desk.use (.take 0) = some (after, [.expr (.ofName "c"), .expr (.ofName "d")]) := by
  obtain ⟨desk, quote, hdesk, hquote⟩ : ∃ desk quote, Desk.useAll {} crossedWrites = some desk ∧
      desk.quotes[0]? = some quote := ⟨_, _, rfl, rfl⟩
  obtain ⟨origin, horigin, ⟨after, htake, -⟩, -⟩ := quotes_write_one_stream hdesk hquote
  obtain rfl : 0 = origin := Option.some.inj horigin
  exact ⟨desk, quote, after, hdesk, hquote, htake⟩

end MacroExpansion
