/-
# `config.h`: the loaded configuration

The sections of `blive_ext_cfg` that come from the configuration file. The arrays of
characters keep their size, so that a text may or may not be terminated inside its
array. The two filter lists are pointers into JSON trees of the cJSON library, whose
type is a parameter.
-/

import BliveQueue.Utils.QList

namespace BliveQueue.Config

open BliveQueue.Utils

/-- `queue_up_config`, the switches that `liveroom_info_recv` reads. -/
structure QueueUpConfig where
  captFirst : Bool
  allowDanmuQueueup : Bool
  allowGiftQueueup : Bool
  deriving DecidableEq

/-- The whole of `queue_up_config`. -/
structure QueueUpRules extends QueueUpConfig where
  hostName : Vector UInt8 defaultNameLen
  minvalueGiftQueueup : UInt32
  deriving DecidableEq

/-- `color_config`. -/
structure ColorConfig where
  titleColor : Vector UInt8 8
  captColor : Vector UInt8 8
  fansColor : Vector UInt8 8
  othersColor : Vector UInt8 8
  deriving DecidableEq

/-- `rearrange_config`. -/
structure RearrangeConfig where
  restoreLastQueue : Bool
  allowRearrange : Bool
  maxKeptRearranger : UInt16
  reawardPerPass : UInt16
  addBlklstFreqRearr : Bool
  addBlklstRearrCnt : UInt16
  deriving DecidableEq

/-- `filter_config`; `none` is a `NULL` list. -/
structure FilterConfig (Json : Type) where
  blacklist : Option Json
  whitelist : Option Json

/-- `blive_ext_cfg` without the handles of the running room. -/
structure BliveExtCfg (Json : Type) where
  roomId : UInt32
  queueUpConfig : QueueUpRules
  colorConfig : ColorConfig
  rearrangeConfig : RearrangeConfig
  filterConfig : FilterConfig Json

end BliveQueue.Config
