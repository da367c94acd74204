import MatchingEngine.C.Adapter
import MatchingEngine.Gen.Program
import MatchingEngine.Hand.Program

/-!
# The generated matcher behind the public interface

`c/gen/matcher_glue.c`: the functions of `matching_engine.h` over the generated matcher and the
adapter. A call of the matcher fills the trade buffer, which is then reported trade by trade.

`Glue` is the state of both, with the engine object and its callback. `glueProcessOrder` runs
`gen_process_order` and then reads the trades back one by one, as the loop of the glue code does, so
the callback learns of the trades of a call after the call has returned, and in the order in which
they were made.
-/

namespace MatchingEngine.Gen

open Contract Lib C

/-- The adapter with the matcher's counter, the engine object, or `none` for a `NULL` one, and the
calls of its callback. -/
structure Glue where
  gen : State Adapter
  engine : Option Hand.Engine
  events : List Hand.TradeEvent

/-- `MatchingEngine_Init` with the capacity `ME_GLUE_CAPACITY`. -/
def glueInit (calloc : AdapterCalloc) (capacity : UInt64) (engine : Option Hand.Engine) (cb : Bool) :
    Option Glue :=
  (Adapter.init calloc capacity).map fun store =>
    { gen := ⟨store, 0⟩
      engine := engine.map fun _ => { total_trades := 0, total_volume := 0, on_trade := cb }
      events := [] }

/-- `ME_adapter_trade_get`. -/
def tradeGet (s : Adapter) (i : ℕ) : Hand.TradeEvent :=
  ⟨(s.g_trades i).taker, (s.g_trades i).maker, (s.g_trades i).price, (s.g_trades i).qty⟩

/-- The block `if (engine)` for a trade. -/
def Glue.report (g : Glue) (t : Hand.TradeEvent) : Glue :=
  match g.engine with
  | none => g
  | some engine => { g with
      engine := some { engine with
        total_trades := engine.total_trades + 1
        total_volume := engine.total_volume + t.qty }
      events := if engine.on_trade then g.events ++ [t] else g.events }

/-- The loop over the trade buffer. -/
def Glue.reportAll (g : Glue) : Glue :=
  (List.range g.gen.store.g_ntrades.toNat).foldl (fun g i => g.report (tradeGet g.gen.store i)) g

/-- `MatchingEngine_ProcessOrder`, with `none` for a `NULL` request. -/
def glueProcessOrder : Option OrderRequest → Prog Glue Bool
  | none => return false
  | some req => fun g =>
    (genProcessOrder (fun op s => Adapter.exec s op) req.id req.account_id req.side.toUInt64
      req.order_type.toUInt64 req.stp_mode.toUInt64 req.price req.qty g.gen).map fun r =>
        (r.1 = 0, ({ g with gen := r.2 } : Glue).reportAll)

/-- `MatchingEngine_CancelOrder`. -/
def glueCancelOrder (order_id : UInt64) : Prog Glue Bool := fun g =>
  (genCancelOrder (fun op s => Adapter.exec s op) order_id g.gen).map fun r =>
    (r.1 = 1, { g with gen := r.2 })

/-- A call of the interface. -/
def glueCall : Hand.Call → Prog Glue Bool
  | .process req => glueProcessOrder req
  | .cancel order_id => glueCancelOrder order_id

end MatchingEngine.Gen
